import DocTypes.Proofs.Grammar.Exact
import DocTypes.Proofs.Outline.Findings
import DocTypes.Proofs.Pattern.Agreement
import DocTypes.Verdict

set_option autoImplicit false

/-!
# Which expressions accept null

An expression accepts null if the policy lets every expression do so. Otherwise it has to be a name
that may denote the null type, or a union with such a name among its alternatives. That a union is
asked about its alternatives makes no difference to the policy, since no text compiles to a union
without alternatives, or with a union among them.
-/

namespace DocTypes

namespace Pattern

theorem accepts_null_of_not_union {nulls : Bool} {p : Pattern} (h : p.isUnion = false) :
    p.accepts nulls .null = (nulls || p.judgesNull) := by
  cases p with
  | union alternatives => cases h
  | named name types =>
    rw [accepts_named, types.hasInstance_null, Bool.or_comm]
    rfl
  | _ => exact (Bool.or_false nulls).symm

theorem accepts_null_union {nulls : Bool} {ps : List Pattern} (hne : ps ≠ [])
    (hu : ∀ p ∈ ps, p.isUnion = false) : (union ps).accepts nulls .null = true ↔
      nulls = true ∨ ∃ p ∈ ps, p.judgesNull = true := by
  have hp (p : Pattern) (hp : p ∈ ps) :
      p.accepts nulls .null = true ↔ nulls = true ∨ p.judgesNull = true := by
    rw [accepts_null_of_not_union (hu p hp), Bool.or_eq_true]
  rw [accepts, anyAccepts_eq_any, List.any_eq_true]
  constructor
  · rintro ⟨p, hm, ha⟩
    exact ((hp p hm).1 ha).imp_right fun hj => ⟨p, hm, hj⟩
  · rintro (hn | ⟨p, hm, hj⟩)
    · obtain ⟨p, hm⟩ := List.exists_mem_of_ne_nil ps hne
      exact ⟨p, hm, (hp p hm).2 (.inl hn)⟩
    · exact ⟨p, hm, (hp p hm).2 (.inr hj)⟩

theorem judgesNull_eq_true_iff {p : Pattern} :
    p.judgesNull = true ↔
      ∃ name types, p = .named name types ∧ types.contains (.kind .null) = true := by
  cases p with
  | named name types =>
    have hn : types.admitsNull = types.contains (.kind .null) :=
      congrArg types.members.any (funext TypeRef.isNullType_eq)
    rw [judgesNull, hn]
    constructor
    · exact fun h => ⟨name, types, rfl, h⟩
    · rintro ⟨_, _, ⟨⟩, h⟩
      exact h
  | _ =>
    refine iff_of_false Bool.false_ne_true ?_
    rintro ⟨_, _, ⟨⟩, _⟩

end Pattern

/-- The alternatives of a text as they stand, without those that are blank: a bar is between each
and the next, and none has a bar outside its brackets. -/
def Grammar.Alternatives (parts : List Text) (text : Text) : Prop :=
  Joined '|' parts text ∧ ∀ part ∈ parts, Bracket.Nested ['|'] part

namespace Outline

open DocTypes.Bracket

variable {σ : Type} {step : Text → σ → Pattern × σ}

/-- Only a name compiles to a name. -/
theorem exists_name_of_compile {outline : Outline} {state after : σ} {name : Text}
    {types : TypeSet} (h : outline.compile step state = (.ok (.named name types), after)) :
    ∃ n, outline = .name n ∧ (step n state).1 = .named name types := by
  cases outline with
  | name n => exact ⟨n, rfl, Except.ok.inj (congrArg Prod.fst h)⟩
  | map key value =>
    rw [compile] at h
    split at h
    · obtain ⟨_, _, hp⟩ := exists_of_map_eq h
      cases hp
    · cases h
  | blank | fault _ => cases h
  | _ =>
    obtain ⟨_, _, hp⟩ := exists_of_map_eq h
    cases hp

theorem ofInside_ne_name (text inside n : Text) (b : Bracket) :
    Form.ofInside text b inside ≠ .name n := by
  intro h
  cases b with
  | curly =>
    rw [Form.ofInside, Form.ofBraces] at h
    split at h <;> cases h
  | _ => cases h

/-- A text that is read as a name is that name, with blanks around. -/
theorem trim_eq_of_read_eq_name {text n : Text} (h : read text = .name n) : Text.trim text = n := by
  have hf : Form.ofText text = .name n := by
    rw [read_eq] at h
    cases hf : Form.ofText text with
    | name m =>
      rw [hf] at h
      rw [Outline.name.inj h]
    | _ =>
      rw [hf] at h
      cases h
  rcases Form.ofText_cases text with
    ⟨-, ho⟩ | ⟨-, ho⟩ | ⟨-, ⟨c, rest, ht, -, ho⟩ | ⟨b, rest, -, ho⟩⟩
  · rw [ho] at hf
    cases hf
  · rw [ho] at hf
    cases hf
  · rw [ho] at hf
    rcases Form.ofName_cases (c :: rest) with ⟨-, hn⟩ | ⟨found, hn⟩
    · rw [hn] at hf
      rw [ht, Form.name.inj hf]
    · rw [hn] at hf
      cases hf
  · rw [ho] at hf
    rcases Form.ofBracketed_cases (b.opener :: rest) b rest with ⟨inside, -, -, hb⟩ | hb | hb
    · rw [hb] at hf
      exact absurd hf (ofInside_ne_name _ _ _ b)
    · rw [hb] at hf
      cases hf
    · rw [hb] at hf
      cases hf

theorem exists_items_of_compileEach {texts : List Text} {state after : σ} {ps : List Pattern}
    (h : compileEach step (texts.map read) state = (.ok ps, after)) :
    ∃ items : List (Text × Pattern), items.map Prod.fst = texts ∧ items.map Prod.snd = ps ∧
      ∀ item ∈ items, ∃ before after, (read item.1).compile step before = (.ok item.2, after) := by
  induction texts generalizing state ps with
  | nil =>
    cases h
    exact ⟨[], rfl, rfl, List.forall_mem_nil _⟩
  | cons text more ih =>
    rw [List.map_cons, compileEach] at h
    split at h
    case h_1 q between hq =>
      obtain ⟨qs, hm, rfl⟩ := exists_of_map_eq h
      obtain ⟨items, hf, hs, hi⟩ := ih hm
      exact ⟨(text, q) :: items, congrArg (text :: ·) hf, congrArg (q :: ·) hs,
        List.forall_mem_cons.2 ⟨⟨state, between, hq⟩, hi⟩⟩
    case h_2 => cases h

end Outline

namespace Scope

open DocTypes.Bracket Outline

variable {scope : Scope} {start : Nat} {text : Text} {p : Pattern} {before after : Findings}

/-- The text is a name that the scope has bound, at some moment, to types among which there is the
null type. -/
def NamesNull (scope : Scope) (text : Text) (p : Pattern) : Prop :=
  ∃ moment types, scope.bind moment (Text.trim text) = p ∧ p = .named (Text.trim text) types ∧
    types.contains (.kind .null) = true

theorem NamesNull.judgesNull (h : scope.NamesNull text p) : p.judgesNull = true := by
  obtain ⟨_, types, -, rfl, hn⟩ := h
  exact Pattern.judgesNull_eq_true_iff.2 ⟨_, types, rfl, hn⟩

theorem NamesNull.isUnion (h : scope.NamesNull text p) : p.isUnion = false := by
  obtain ⟨_, types, -, rfl, -⟩ := h
  rfl

theorem namesNull_iff
    (h : (read text).compile (scope.bindNext start) before = (.ok p, after)) :
    scope.NamesNull text p ↔ p.judgesNull = true := by
  refine ⟨NamesNull.judgesNull, fun hj => ?_⟩
  obtain ⟨name, types, rfl, hn⟩ := Pattern.judgesNull_eq_true_iff.1 hj
  obtain ⟨n, hr, hb⟩ := exists_name_of_compile h
  have ht := trim_eq_of_read_eq_name hr
  -- A name keeps its own text when it is bound, so that the text names what the pattern names.
  have hne : n = name := by
    have he := bare_bind scope (start + before.asked.length) n
    rw [show scope.bind _ n = _ from hb] at he
    exact (Pattern.unresolved.inj he).symm
  subst hne
  rw [← ht] at hb ⊢
  exact ⟨_, types, hb, rfl, hn⟩

theorem fill_of_compile (h : (read text).compile (scope.bindNext start) before = (.ok p, after)) :
    (read text).fill .unresolved = .ok p.bare := by
  have hb : ((read text).compile (scope.bindNext start) before).1.map Pattern.bare =
      (read text).fill .unresolved :=
    compile_bare (fun name found => bare_bind scope (start + found.asked.length) name) _ _
  rw [← hb, h]
  rfl

theorem isUnion_of_compile (hl : (tokens '|' text).length ≤ 1)
    (h : (read text).compile (scope.bindNext start) before = (.ok p, after)) :
    p.isUnion = false := by
  rw [← p.isUnion_bare]
  exact Grammar.isUnion_of_fill_read (fun _ => rfl) hl (fill_of_compile h)

/-- A text with more than one alternative compiles to the union of what they compile to, none of
which is a union. -/
theorem exists_items_of_compile (hm : 1 < (tokens '|' text).length)
    (h : (read text).compile (scope.bindNext start) before = (.ok p, after)) :
    ∃ items : List (Text × Pattern), items ≠ [] ∧ Grammar.Alternatives (items.map Prod.fst) text ∧
      p = .union (items.map Prod.snd) ∧ ∀ item ∈ items, item.2.isUnion = false ∧
        (scope.NamesNull item.1 item.2 ↔ item.2.judgesNull = true) := by
  obtain ⟨kept, hj, ht, hk⟩ := Grammar.exists_joined '|' text
  -- What compiles is nested, bound or not, so its pieces are and have no bar of their own.
  have hd := Grammar.derives_of_fill (fun _ => rfl) (fill_of_compile h)
  have hn : ∀ part ∈ kept, Nested ['|'] part := fun part hp =>
    nested_of_mem_pieces (Grammar.nested_of_apartFrom hd.nested (by simp)) (hk part hp).1
  rw [read_of_form _ (Form.ofText_of_many hm), build, ht, map_read_trim] at h
  obtain ⟨ps, hc, rfl⟩ := exists_of_map_eq h
  obtain ⟨items, rfl, rfl, hi⟩ := exists_items_of_compileEach hc
  refine ⟨items, ?_, ⟨hj, hn⟩, rfl, fun item hit => ?_⟩
  · rintro rfl
    rw [ht] at hm
    exact absurd hm (by decide)
  · obtain ⟨between, later, hs⟩ := hi item hit
    have hl := length_tokens_le_one (hn _ (List.mem_map_of_mem hit)) (List.mem_singleton.2 rfl)
    exact ⟨isUnion_of_compile hl hs, namesNull_iff hs⟩

/-- What a text compiles to accepts null exactly if the policy says so for every expression, or the
text or one of its alternatives is a name bound to types among which there is the null type. -/
theorem accepts_null_iff (h : scope.patternAt? start text = .ok p) (policy : Policy) :
    policy.accepts p .null = true ↔ policy.nulls = true ∨ scope.NamesNull text p ∨
      ∃ items : List (Text × Pattern), Grammar.Alternatives (items.map Prod.fst) text ∧
        p = .union (items.map Prod.snd) ∧ ∃ item ∈ items, scope.NamesNull item.1 item.2 := by
  rcases hc : (read text).compile (scope.bindNext start) {} with ⟨result, found⟩
  rw [patternAt?_eq, hc] at h
  subst h
  by_cases hm : 1 < (tokens '|' text).length
  · obtain ⟨items, hne, ha, rfl, hi⟩ := exists_items_of_compile hm hc
    have hu : ∀ q ∈ items.map Prod.snd, q.isUnion = false :=
      List.forall_mem_map.2 fun item hit => (hi item hit).1
    rw [Policy.accepts, Pattern.accepts_null_union (mt List.map_eq_nil_iff.1 hne) hu]
    refine or_congr_right ⟨?_, ?_⟩
    · rintro ⟨q, hq, hj⟩
      obtain ⟨item, hit, rfl⟩ := List.mem_map.1 hq
      exact .inr ⟨items, ha, rfl, item, hit, (hi item hit).2.2 hj⟩
    · rintro (hn | ⟨others, -, he, item, hit, hn⟩)
      · cases hn.isUnion
      · rw [Pattern.union.inj he]
        exact ⟨item.2, List.mem_map_of_mem hit, hn.judgesNull⟩
  · have hu := isUnion_of_compile (Nat.not_lt.1 hm) hc
    rw [Policy.accepts, Pattern.accepts_null_of_not_union hu, Bool.or_eq_true, ← namesNull_iff hc]
    refine or_congr_right (or_iff_left ?_).symm
    rintro ⟨items, -, rfl, -⟩
    cases hu

/-- With the null type among its alternatives, an expression accepts null whatever the policy. -/
theorem accepts_null_of_optional :
    let scope : Scope := ⟨.withBuiltins, none⟩
    let text := "int | None".toList
    let p := Pattern.union [.named "int".toList (.single (.kind .int)),
      .named "None".toList (.single (.kind .null))]
    scope.patternAt? 0 text = .ok p ∧ ∀ policy : Policy, policy.accepts p .null = true := by
  intro scope text p
  have hi : read "int".toList = .name "int".toList := read_of_form (.name _) rfl
  have hn : read "None".toList = .name "None".toList := read_of_form (.name _) rfl
  have hr : read text = .union [.name "int".toList, .name "None".toList] := by
    rw [read_of_form (.union ["int".toList, "None".toList]) rfl]
    simp only [build, List.map, hi, hn]
  have hp : scope.patternAt? 0 text = .ok p := by
    rw [patternAt?_eq, hr]
    rfl
  let parts := ["int ".toList, " None".toList]
  have hb : ∀ part ∈ parts, ¬ Text.Blank part :=
    List.forall_mem_cons.2 ⟨mt Text.trim_eq_nil_iff.2 (by decide),
      List.forall_mem_singleton.2 (mt Text.trim_eq_nil_iff.2 (by decide))⟩
  have hs : ∀ part ∈ parts, Nested ['|'] part := by
    have hd : (parts.all fun part => part.all fun c => decide (Plain c ∧ c ∉ ['|'])) = true := rfl
    intro part hm
    refine .of_plain fun c hc => of_decide_eq_true ?_
    exact List.all_eq_true.1 (List.all_eq_true.1 hd part hm) c hc
  have ha : Grammar.Alternatives parts text :=
    ⟨⟨parts, rfl, (List.filter_eq_self.2 fun part hm => decide_eq_true (hb part hm)).symm⟩, hs⟩
  refine ⟨hp, fun policy => (accepts_null_iff hp policy).2 (.inr (.inr ?_))⟩
  refine ⟨[("int ".toList, .named "int".toList (.single (.kind .int))),
    (" None".toList, .named "None".toList (.single (.kind .null)))], ha, rfl, _,
    List.mem_cons_of_mem _ (List.mem_singleton.2 rfl), 0, _, rfl, rfl, rfl⟩

end Scope

end DocTypes
