import DocTypes.Proofs.Text.Numeral
import DocTypes.Proofs.Text.Quoted
import DocTypes.Proofs.Value.Equivalence
import DocTypes.Value.Text

set_option autoImplicit false

/-!
# The text of a value tells the value

The first character of the text of a plain value tells its kind, but that sets and dicts share their
braces, and where no digit follows, the text tells the value and where it ends. So no two plain
values have one text.
-/

namespace DocTypes.Value

/-- Neither a float nor a function, a method or an object. -/
def isPlain : Value → Bool
  | float _ => false
  | function _ => false
  | method _ => false
  | object _ => false
  | _ => true

/-- The value is plain, and so is all that is in it. -/
def Plain (value : Value) : Prop := ∀ part ∈ value.parts, part.isPlain = true

instance (value : Value) : Decidable value.Plain :=
  inferInstanceAs (Decidable (∀ part ∈ value.parts, _))

theorem Plain.of_mem {container : Value} {items : List Value} (h : container.Plain)
    (hc : container.parts = container :: partsEach items) : ∀ item ∈ items, item.Plain :=
  fun _ hm part hp => h part (parts_subset_of_mem hc hm part hp)

theorem Plain.of_mem_entries {entries : List (Value × Value)} (h : (dict entries).Plain) :
    ∀ entry ∈ entries, entry.1.Plain ∧ entry.2.Plain :=
  fun _ hm => ⟨fun part hp => h part (parts_subset_of_mem_entries hm part (.inl hp)),
    fun part hp => h part (parts_subset_of_mem_entries hm part (.inr hp))⟩

theorem Plain.hasNaN {value : Value} (h : value.Plain) : value.hasNaN = false := by
  refine List.any_eq_false.2 fun part hp hn => ?_
  have hpart := h part hp
  cases part <;> first | cases hn | cases hpart

/-- The kind of a value as far as the first character of its text tells. -/
def roughKind? : Value → Option Kind
  | set _ => some .dict
  | value => value.kind?

/-- The kind of a plain value whose text starts with this character. -/
def kindOfFirst? (c : Char) : Option Kind :=
  if c = '-' ∨ Text.isDigit c then some .int
  else if c = 'N' then some .null
  else if c = 'T' ∨ c = 'F' then some .bool
  else if c = '\'' then some .str
  else if c = 'b' then some .bytes
  else if c = '[' then some .list
  else if c = '(' then some .tuple
  else if c = '{' ∨ c = 's' then some .dict
  else none

theorem Plain.exists_first {value : Value} (h : value.Plain) :
    ∃ c rest, value.text = c :: rest ∧ kindOfFirst? c = value.roughKind? := by
  have hp := h value value.mem_parts_self
  cases value with
  | int n =>
    cases hn : n.toInt with
    | ofNat m =>
      obtain ⟨c, rest, hc, hd⟩ := Text.exists_ofNat_eq_cons m
      exact ⟨c, rest, by rw [text_int, hn, ← hc]; rfl, if_pos (.inr hd)⟩
    | negSucc m => exact ⟨'-', Text.ofNat (m + 1), by rw [text_int, hn]; rfl, if_pos (.inl rfl)⟩
  | bool b => cases b <;> exact ⟨_, _, rfl, rfl⟩
  | set members => cases members <;> exact ⟨_, _, rfl, rfl⟩
  | null | str _ | bytes _ | list _ | tuple _ | dict _ => exact ⟨_, _, rfl, rfl⟩
  | float _ | function _ | method _ | object _ => cases hp

/-- Texts that start alike are texts of one kind. -/
theorem Plain.roughKind?_eq {v w : Value} (hv : v.Plain) (hw : w.Plain) {r s : Text}
    (h : v.text ++ r = w.text ++ s) : v.roughKind? = w.roughKind? := by
  obtain ⟨c, after, hc, hk⟩ := hv.exists_first
  obtain ⟨d, after', hd, hl⟩ := hw.exists_first
  rw [hc, hd] at h
  rw [← hk, ← hl, (List.cons.inj h).1]

theorem Plain.exists_start {value : Value} (h : value.Plain) :
    ∃ c rest, value.text = c :: rest ∧ (kindOfFirst? c).isSome = true := by
  obtain ⟨c, rest, hc, hk⟩ := h.exists_first
  refine ⟨c, rest, hc, ?_⟩
  have hp := h value value.mem_parts_self
  rw [hk]
  cases value <;> first | rfl | cases hp

/-- What closes a container: a bracket, or the comma and the bracket behind a single item. -/
def Closes (rest : Text) : Prop :=
  (∃ c after, rest = c :: after ∧ (c = ']' ∨ c = ')' ∨ c = '}')) ∨
    ∃ after, rest = ',' :: ')' :: after

theorem Closes.exists_first {rest : Text} (h : Closes rest) :
    ∃ c after, rest = c :: after ∧ kindOfFirst? c = none := by
  rcases h with ⟨c, after, rfl, rfl | rfl | rfl⟩ | ⟨after, rfl⟩ <;> exact ⟨_, _, rfl, rfl⟩

theorem Closes.halts {rest : Text} (h : Closes rest) : Text.Halts rest := by
  obtain ⟨c, after, rfl, hc⟩ := h.exists_first
  rintro _ ⟨rfl⟩
  refine Bool.eq_false_iff.2 fun hd => ?_
  rw [kindOfFirst?, if_pos (.inr hd)] at hc
  cases hc

theorem Closes.ne_comma {rest : Text} (h : Closes rest) (after : Text) :
    rest ≠ ',' :: ' ' :: after := by
  rcases h with ⟨c, more, rfl, rfl | rfl | rfl⟩ | ⟨more, rfl⟩ <;> simp

section Items

variable {α : Type} {write : α → Text} {P : α → Prop} {items others : List α} {r s : Text}

/-- Where no digit follows, the text of `a` tells `a` among all that have `P`, and where it ends. -/
def Told (write : α → Text) (P : α → Prop) (a : α) : Prop :=
  ∀ b r s, P b → Text.Halts r → Text.Halts s → write a ++ r = write b ++ s → a = b ∧ r = s

/-- The items behind the first one. -/
def following (write : α → Text) (items : List α) : Text :=
  items.flatMap fun item => ',' :: ' ' :: write item

theorem commaSeparated_cons (first : α) (more : List α) :
    commaSeparated ((first :: more).map write) = write first ++ following write more := by
  induction more generalizing first with
  | nil => simp [commaSeparated, following]
  | cons item more ih =>
    have h := ih item
    rw [commaSeparated, List.map_cons] at h ⊢
    rw [List.map_cons, List.intercalate_cons_cons, h, following, following, List.flatMap_cons]
    simp

theorem halts_following (hr : Text.Halts r) : Text.Halts (following write items ++ r) := by
  cases items with
  | nil => exact hr
  | cons item items => rintro _ ⟨rfl⟩; rfl

theorem following_told (hi : ∀ item ∈ items, Told write P item) (ho : ∀ other ∈ others, P other)
    (hr : Closes r) (hs : Closes s)
    (h : following write items ++ r = following write others ++ s) : items = others ∧ r = s := by
  induction items generalizing others with
  | nil =>
    cases others with
    | nil => exact ⟨rfl, h⟩
    | cons b others => exact absurd h (hr.ne_comma _)
  | cons a items ih =>
    cases others with
    | nil => exact absurd h.symm (hs.ne_comma _)
    | cons b others =>
      obtain ⟨ha, him⟩ := List.forall_mem_cons.1 hi
      obtain ⟨hb, hom⟩ := List.forall_mem_cons.1 ho
      simp only [following, List.flatMap_cons, List.cons_append, List.append_assoc,
        List.cons.injEq, true_and] at h
      obtain ⟨rfl, hm⟩ := ha b _ _ hb (halts_following hr.halts) (halts_following hs.halts) h
      obtain ⟨rfl, rfl⟩ := ih him hom hm
      exact ⟨rfl, rfl⟩

/-- Between brackets the items are told one by one: an item does not start with what closes. -/
theorem commaSeparated_told
    (hf : ∀ a, P a → ∃ c rest, write a = c :: rest ∧ (kindOfFirst? c).isSome = true)
    (hi : ∀ item ∈ items, P item ∧ Told write P item) (ho : ∀ other ∈ others, P other)
    (hr : Closes r) (hs : Closes s)
    (h : commaSeparated (items.map write) ++ r = commaSeparated (others.map write) ++ s) :
    items = others ∧ r = s := by
  have hne : ∀ a (more rest after : Text), P a → Closes rest → rest ≠ write a ++ more ++ after := by
    intro a more rest after ha hc he
    obtain ⟨c, behind, hw, hk⟩ := hf a ha
    obtain ⟨d, _, rfl, hd⟩ := hc.exists_first
    rw [hw] at he
    rw [← (List.cons.inj he).1, hd] at hk
    cases hk
  cases items with
  | nil =>
    cases others with
    | nil => exact ⟨rfl, h⟩
    | cons b others =>
      rw [commaSeparated_cons] at h
      exact absurd h (hne b _ _ _ (ho b (List.mem_cons_self ..)) hr)
  | cons a items =>
    obtain ⟨ha, him⟩ := List.forall_mem_cons.1 hi
    cases others with
    | nil =>
      rw [commaSeparated_cons] at h
      exact absurd h.symm (hne a _ _ _ ha.1 hs)
    | cons b others =>
      obtain ⟨hb, hom⟩ := List.forall_mem_cons.1 ho
      rw [commaSeparated_cons, commaSeparated_cons, List.append_assoc, List.append_assoc] at h
      obtain ⟨rfl, hm⟩ := ha.2 b _ _ hb (halts_following hr.halts) (halts_following hs.halts) h
      obtain ⟨rfl, rfl⟩ := following_told (fun item hi => (him item hi).2) hom hr hs hm
      exact ⟨rfl, rfl⟩

end Items

/-- The key and the value are plain. -/
def PlainEntry (entry : Value × Value) : Prop := entry.1.Plain ∧ entry.2.Plain

theorem halts_colon (rest : Text) : Text.Halts (':' :: rest) := by rintro _ ⟨rfl⟩; rfl

theorem told_entryText {entry : Value × Value} (hk : Told text Plain entry.1)
    (hv : Told text Plain entry.2) : Told entryText PlainEntry entry := by
  intro other r s ho hr hs h
  simp only [entryText, List.append_assoc, List.cons_append] at h
  obtain ⟨hkey, h⟩ := hk other.1 _ _ ho.1 (halts_colon _) (halts_colon _) h
  obtain ⟨-, h⟩ := List.cons.inj h
  obtain ⟨-, h⟩ := List.cons.inj h
  obtain ⟨hvalue, h⟩ := hv other.2 r s ho.2 hr hs h
  exact ⟨Prod.ext hkey hvalue, h⟩

variable {v w member : Value} {items others members : List Value} {entries : List (Value × Value)}
  {r s : Text}

/-- In the first place of a set stands no colon. -/
theorem text_set_ne_text_dict (hm : member.Plain) (he : ∀ entry ∈ entries, PlainEntry entry)
    (ht : Told text Plain member ∨ ∀ entry ∈ entries, Told text Plain entry.1) :
    (set (member :: members)).text ++ r ≠ (dict entries).text ++ s := by
  intro h
  have hc : Closes ('}' :: r) := .inl ⟨'}', r, rfl, .inr (.inr rfl)⟩
  simp only [text_set, text_dict, commaSeparated_cons, List.cons_append, List.append_assoc,
    List.nil_append, List.cons.injEq, true_and] at h
  cases entries with
  | nil =>
    obtain ⟨c, after, hmc, hk⟩ := hm.exists_start
    rw [hmc] at h
    rw [(List.cons.inj h).1] at hk
    cases hk
  | cons entry entries =>
    simp only [commaSeparated_cons, entryText, List.append_assoc, List.cons_append] at h
    have hk := (he entry (List.mem_cons_self ..)).1
    obtain ⟨rest, hr⟩ : ∃ rest, following text members ++ '}' :: r = ':' :: rest := by
      rcases ht with ht | ht
      · exact ⟨_, (ht entry.1 _ _ hk (halts_following hc.halts) (halts_colon _) h).2⟩
      · exact ⟨_, (ht entry (List.mem_cons_self ..) member _ _ hm (halts_colon _)
          (halts_following hc.halts) h.symm).2.symm⟩
    cases members <;> cases hr

theorem closes_bracket {c : Char} (hc : c = ']' ∨ c = ')' ∨ c = '}') (rest : Text) :
    Closes (c :: rest) := .inl ⟨c, rest, rfl, hc⟩

theorem closes_tuple (count : Nat) (rest : Text) :
    Closes ((if count = 1 then [',', ')'] else [')']) ++ rest) := by
  split
  · exact .inr ⟨rest, rfl⟩
  · exact closes_bracket (.inr (.inl rfl)) rest

theorem told_items (hi : ∀ item ∈ items, item.Plain ∧ Told text Plain item)
    (ho : ∀ other ∈ others, other.Plain) (hr : Closes r) (hs : Closes s)
    (h : commaSeparated (items.map text) ++ r = commaSeparated (others.map text) ++ s) :
    items = others ∧ r = s :=
  commaSeparated_told (fun _ => Plain.exists_start) hi ho hr hs h

theorem told_entries {others : List (Value × Value)}
    (hi : ∀ entry ∈ entries, PlainEntry entry ∧ Told entryText PlainEntry entry)
    (ho : ∀ other ∈ others, PlainEntry other) (hr : Closes r) (hs : Closes s)
    (h : commaSeparated (entries.map entryText) ++ r = commaSeparated (others.map entryText) ++ s) :
    entries = others ∧ r = s := by
  refine commaSeparated_told (fun entry he => ?_) hi ho hr hs h
  obtain ⟨c, rest, hc, hk⟩ := he.1.exists_start
  exact ⟨c, _, by rw [entryText, hc]; rfl, hk⟩

theorem told_text (v : Value) : v.Plain → Told text Plain v := by
  -- The other value is of the same kind, so that each case has one shape of it to consider, or two
  -- where there are braces.
  induction v with
  | float _ | function _ | method _ | object _ => exact fun hv => nomatch hv _ (mem_parts_self _)
  | null =>
    intro hv w r s hw hr hs h
    match w, hv.roughKind?_eq hw h with
    | null, _ => exact ⟨rfl, List.append_cancel_left h⟩
  | bool b =>
    intro hv w r s hw hr hs h
    match w, hv.roughKind?_eq hw h with
    | bool c, _ => cases b <;> cases c <;> cases h <;> exact ⟨rfl, rfl⟩
  | int n =>
    intro hv w r s hw hr hs h
    match w, hv.roughKind?_eq hw h with
    | int m, _ =>
      obtain ⟨hn, hrs⟩ := Text.ofInt_append_inj hr hs h
      exact ⟨congrArg int (Int64.toInt_inj.1 hn), hrs⟩
  | str t =>
    intro hv w r s hw hr hs h
    match w, hv.roughKind?_eq hw h with
    | str u, _ => exact (Text.prefixFree_quoted t u r s h).imp_left (congrArg str)
  | bytes b =>
    intro hv w r s hw hr hs h
    match w, hv.roughKind?_eq hw h with
    | bytes c, _ => exact (Text.prefixFree_quotedBytes b c r s h).imp_left (congrArg bytes)
  | list items ih =>
    intro hv w r s hw hr hs h
    have hp := hv.of_mem rfl
    match w, hv.roughKind?_eq hw h with
    | list others, _ =>
      simp only [text_list, List.cons_append, List.append_assoc, List.nil_append, List.cons.injEq,
        true_and] at h
      have hc := closes_bracket (.inl rfl)
      obtain ⟨rfl, hrs⟩ := told_items (fun item hm => ⟨hp item hm, ih item hm (hp item hm)⟩)
        (hw.of_mem rfl) (hc r) (hc s) h
      exact ⟨rfl, (List.cons.inj hrs).2⟩
  | tuple items ih =>
    intro hv w r s hw hr hs h
    have hp := hv.of_mem rfl
    match w, hv.roughKind?_eq hw h with
    | tuple others, _ =>
      simp only [text_tuple, List.cons_append, List.append_assoc, List.cons.injEq, true_and] at h
      obtain ⟨rfl, hrs⟩ := told_items (fun item hm => ⟨hp item hm, ih item hm (hp item hm)⟩)
        (hw.of_mem rfl) (closes_tuple _ r) (closes_tuple _ s) h
      exact ⟨rfl, List.append_cancel_left hrs⟩
  | set members ih =>
    intro hv w r s hw hr hs h
    have hp := hv.of_mem rfl
    have hi : ∀ member ∈ members, member.Plain ∧ Told text Plain member :=
      fun member hm => ⟨hp member hm, ih member hm (hp member hm)⟩
    match w, hv.roughKind?_eq hw h with
    | set others, _ =>
      cases members with
      | nil =>
        cases others with
        | nil => exact ⟨rfl, List.append_cancel_left h⟩
        | cons other others => cases h
      | cons member members =>
        cases others with
        | nil => cases h
        | cons other others =>
          simp only [text_set, List.cons_append, List.append_assoc, List.nil_append,
            List.cons.injEq, true_and] at h
          have hc := closes_bracket (.inr (.inr rfl))
          obtain ⟨he, hrs⟩ := told_items hi (hw.of_mem rfl) (hc r) (hc s) h
          exact ⟨congrArg set he, (List.cons.inj hrs).2⟩
    | dict entries, _ =>
      cases members with
      | nil => cases h
      | cons member members =>
        obtain ⟨hm, -⟩ := List.forall_mem_cons.1 hi
        exact absurd h (text_set_ne_text_dict hm.1 hw.of_mem_entries (.inl hm.2))
  | dict entries ih =>
    intro hv w r s hw hr hs h
    have hp := hv.of_mem_entries
    have hk : ∀ entry ∈ entries, Told text Plain entry.1 :=
      fun entry he => (ih entry he).1 (hp entry he).1
    match w, hv.roughKind?_eq hw h with
    | set others, _ =>
      cases others with
      | nil => cases h
      | cons other others =>
        have ho := hw.of_mem rfl other (List.mem_cons_self ..)
        exact absurd h.symm (text_set_ne_text_dict ho hp (.inr hk))
    | dict others, _ =>
      simp only [text_dict, List.cons_append, List.append_assoc, List.nil_append, List.cons.injEq,
        true_and] at h
      have hc := closes_bracket (.inr (.inr rfl))
      have hi : ∀ entry ∈ entries, PlainEntry entry ∧ Told entryText PlainEntry entry :=
        fun entry he => ⟨hp entry he,
          told_entryText (hk entry he) ((ih entry he).2 (hp entry he).2)⟩
      obtain ⟨rfl, hrs⟩ := told_entries hi hw.of_mem_entries (hc r) (hc s) h
      exact ⟨rfl, (List.cons.inj hrs).2⟩

/-- Plain values have one text only if they are one value, which then equals itself. -/
theorem text_eq_iff {v w : Value} (hv : v.Plain) (hw : w.Plain) :
    v.text = w.text ↔ v = w ∧ (v == w) = true := by
  constructor
  · intro h
    have hn : Text.Halts [] := fun _ hc => nomatch hc
    have he : v.text ++ [] = w.text ++ [] := by rw [h]
    obtain ⟨rfl, -⟩ := told_text v hv w [] [] hw hn hn he
    exact ⟨rfl, by rw [beq_self, hv.hasNaN]; rfl⟩
  · rintro ⟨rfl, -⟩
    rfl

/-- A dict and a set of a string that imitates its entry: only the escapes tell them apart. -/
theorem text_eq_iff_of_imitation :
    let v := dict [(str "a".toList, tuple [bytes [39, 10]])]
    let w := set [str "a': (b'\\'\\n',)".toList]
    v.Plain ∧ w.Plain ∧ v.text ≠ w.text := by
  intro v w
  have hv : v.Plain := by decide
  have hw : w.Plain := by decide
  refine ⟨hv, hw, fun h => ?_⟩
  have hk : v.kind? = w.kind? := congrArg kind? ((text_eq_iff hv hw).1 h).1
  cases hk

end DocTypes.Value
