import DocTypes.Proofs.Pattern.Agreement

set_option autoImplicit false

/-!
# Values that no pattern tells apart

All that a pattern asks of a value is of what kind it is, from which classes it derives, and what
its parts are. So values that agree in this down to their innermost parts are accepted by the same
patterns. The order of the parts counts in a tuple and nowhere else.
-/

namespace DocTypes

section Paired

variable {α : Type} {R : α → α → Prop} {as bs : List α}

/-- Whatever is in one of the lists is related to something in the other. -/
structure Paired (R : α → α → Prop) (as bs : List α) : Prop where
  left : ∀ a ∈ as, ∃ b ∈ bs, R a b
  right : ∀ b ∈ bs, ∃ a ∈ as, R a b

theorem paired_of_forall₂ (h : List.Forall₂ R as bs) : Paired R as bs := by
  induction h with
  | nil => exact ⟨List.forall_mem_nil _, List.forall_mem_nil _⟩
  | @cons a b as bs hab _ ih =>
    constructor
    · refine List.forall_mem_cons.2 ⟨⟨b, List.mem_cons_self .., hab⟩, fun c hc => ?_⟩
      obtain ⟨d, hd, hr⟩ := ih.left c hc
      exact ⟨d, List.mem_cons_of_mem _ hd, hr⟩
    · refine List.forall_mem_cons.2 ⟨⟨a, List.mem_cons_self .., hab⟩, fun d hd => ?_⟩
      obtain ⟨c, hc, hr⟩ := ih.right d hd
      exact ⟨c, List.mem_cons_of_mem _ hc, hr⟩

theorem Paired.of_perm (h : Paired R as bs) {cs : List α} (hp : cs.Perm as) : Paired R cs bs where
  left a ha := h.left a (hp.mem_iff.1 ha)
  right b hb := by
    obtain ⟨a, ha, hr⟩ := h.right b hb
    exact ⟨a, hp.mem_iff.2 ha, hr⟩

theorem Paired.all_eq (h : Paired R as bs) {f : α → Bool} (hf : ∀ a b, R a b → f a = f b) :
    as.all f = bs.all f := by
  rw [Bool.eq_iff_iff, List.all_eq_true, List.all_eq_true]
  constructor
  · intro ha b hb
    obtain ⟨a, hm, hr⟩ := h.right b hb
    rw [← hf a b hr, ha a hm]
  · intro hb a ha
    obtain ⟨b, hm, hr⟩ := h.left a ha
    rw [hf a b hr, hb b hm]

theorem any_eq_of_rel {a? b? : Option α} (h : Option.Rel R a? b?) {f : α → Bool}
    (hf : ∀ a b, R a b → f a = f b) : a?.any f = b?.any f := by
  cases h with
  | none => rfl
  | some hr => exact hf _ _ hr

end Paired

/-- The same string is found at the same place among related entries. -/
theorem Value.rel_fieldAt? {R : Value → Value → Prop} {name : Text}
    (hs : ∀ v w, R v w → v.isStr name = w.isStr name) {entries others : List (Value × Value)}
    (h : List.Forall₂ (fun entry other => R entry.1 other.1 ∧ R entry.2 other.2) entries others) :
    Option.Rel R (fieldAt? entries name) (fieldAt? others name) := by
  induction h with
  | nil => exact .none
  | @cons entry other _ _ hr _ ih =>
    unfold fieldAt? at ih ⊢
    rw [List.find?_cons, List.find?_cons, hs entry.1 other.1 hr.1]
    cases other.1.isStr name with
    | true => exact .some hr.2
    | false => exact ih

/-- Related values are of one kind and derive from the same classes, and their parts are related in
the same way. -/
structure Likeness (R : Value → Value → Prop) : Prop where
  kind {v w : Value} (h : R v w) : v.kind? = w.kind?
  derives {v w : Value} (h : R v w) (c : Class) :
    v.class?.any (·.derivesFrom c) = w.class?.any (·.derivesFrom c)
  list {items others : List Value} (h : R (.list items) (.list others)) : Paired R items others
  tuple {items others : List Value} (h : R (.tuple items) (.tuple others)) :
    List.Forall₂ R items others
  set {members others : List Value} (h : R (.set members) (.set others)) : Paired R members others
  entries {entries others : List (Value × Value)} (h : R (.dict entries) (.dict others)) :
    Paired (fun entry other => R entry.1 other.1 ∧ R entry.2 other.2) entries others
  field {entries others : List (Value × Value)} (h : R (.dict entries) (.dict others))
    (name : Text) : Option.Rel R (Value.fieldAt? entries name) (Value.fieldAt? others name)

namespace Pattern

/-- The kind of container that a pattern asks for. -/
def container? : Pattern → Option Kind
  | list _ => some .list
  | tuple _ => some .tuple
  | set _ => some .set
  | map _ _ | record _ => some .dict
  | _ => none

theorem accepts_of_container? {pattern : Pattern} {kind : Kind}
    (h : pattern.container? = some kind) {value : Value} (hv : value.kind? ≠ some kind)
    (nulls : Bool) : pattern.accepts nulls value = (value.isNull && nulls) := by
  cases pattern <;> cases h <;> cases value <;> first | rfl | exact absurd rfl hv

end Pattern

namespace Likeness

variable {R : Value → Value → Prop} {v w : Value} {nulls : Bool}

theorem isNull_eq (h : Likeness R) (hr : R v w) : v.isNull = w.isNull := by
  have hn (value : Value) : value.isNull = (value.kind? == some .null) := by cases value <;> rfl
  rw [hn, hn, h.kind hr]

theorem hasInstance_eq (h : Likeness R) (hr : R v w) (type : TypeRef) :
    type.hasInstance v = type.hasInstance w := by
  cases type with
  | kind k =>
    have hk := h.kind hr
    have hn := h.isNull_eq hr
    cases k <;> simp only [TypeRef.hasInstance, hk, hn]
  | ofClass c => exact h.derives hr c

theorem accepts_eq_of_container? (h : Likeness R) (hr : R v w) {pattern : Pattern} {kind : Kind}
    (hp : pattern.container? = some kind) (hv : v.kind? ≠ some kind) :
    pattern.accepts nulls v = pattern.accepts nulls w := by
  have hw : w.kind? ≠ some kind := h.kind hr ▸ hv
  rw [Pattern.accepts_of_container? hp hv, Pattern.accepts_of_container? hp hw, h.isNull_eq hr]

theorem eachAccepts_eq {patterns : List Pattern}
    (hp : ∀ pattern ∈ patterns, ∀ v w, R v w → pattern.accepts nulls v = pattern.accepts nulls w)
    {values others : List Value} (h : List.Forall₂ R values others) :
    Pattern.eachAccepts nulls patterns values = Pattern.eachAccepts nulls patterns others := by
  induction h generalizing patterns with
  | nil => rfl
  | @cons v w _ _ hr _ ih =>
    cases patterns with
    | nil => rfl
    | cons pattern more =>
      obtain ⟨ha, hm⟩ := List.forall_mem_cons.1 hp
      rw [Pattern.eachAccepts, Pattern.eachAccepts, ha v w hr, ih hm]

/-- Related values are accepted by the same patterns. -/
theorem accepts_eq (h : Likeness R) (nulls : Bool) (pattern : Pattern) :
    ∀ v w, R v w → pattern.accepts nulls v = pattern.accepts nulls w := by
  induction pattern with
  | any | unresolved name =>
    intro v w hr
    rw [Pattern.accepts, Pattern.accepts, h.isNull_eq hr]
  | union alternatives ih =>
    intro v w hr
    rw [Pattern.accepts, Pattern.accepts, Pattern.anyAccepts_eq_any, Pattern.anyAccepts_eq_any,
      Bool.eq_iff_iff, List.any_eq_true, List.any_eq_true]
    exact exists_congr fun pattern => and_congr_right fun hm => by rw [ih pattern hm v w hr]
  | named name types =>
    intro v w hr
    have ht : types.hasInstance v = types.hasInstance w :=
      congrArg types.members.any (funext (h.hasInstance_eq hr))
    rw [Pattern.accepts_named, Pattern.accepts_named, ht, h.isNull_eq hr]
  | list element ih =>
    intro v w hr
    cases v with
    | list items =>
      cases w with
      | list others => exact (h.list hr).all_eq ih
      | _ => cases h.kind hr
    | _ => exact h.accepts_eq_of_container? hr rfl fun hk => by cases hk
  | tuple items ih =>
    intro v w hr
    cases v with
    | tuple values =>
      cases w with
      | tuple others => exact eachAccepts_eq ih (h.tuple hr)
      | _ => cases h.kind hr
    | _ => exact h.accepts_eq_of_container? hr rfl fun hk => by cases hk
  | set element ih =>
    intro v w hr
    cases v with
    | set members =>
      cases w with
      | set others => exact (h.set hr).all_eq ih
      | _ => cases h.kind hr
    | _ => exact h.accepts_eq_of_container? hr rfl fun hk => by cases hk
  | map key content ihk ihc =>
    intro v w hr
    cases v with
    | dict entries =>
      cases w with
      | dict others =>
        refine (h.entries hr).all_eq fun entry other he => ?_
        rw [ihk _ _ he.1, ihc _ _ he.2]
      | _ => cases h.kind hr
    | _ => exact h.accepts_eq_of_container? hr rfl fun hk => by cases hk
  | record fields ih =>
    intro v w hr
    cases v with
    | dict entries =>
      cases w with
      | dict others =>
        change Pattern.fieldsAccept nulls fields entries = Pattern.fieldsAccept nulls fields others
        rw [Pattern.fieldsAccept_eq_all, Pattern.fieldsAccept_eq_all, Bool.eq_iff_iff,
          List.all_eq_true, List.all_eq_true]
        refine forall_congr' fun field => forall_congr' fun hm => ?_
        rw [any_eq_of_rel (h.field hr field.1) (ih field hm)]
      | _ => cases h.kind hr
    | _ => exact h.accepts_eq_of_container? hr rfl fun hk => by cases hk

end Likeness

end DocTypes
