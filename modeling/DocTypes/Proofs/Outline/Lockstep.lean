import DocTypes.Proofs.Pattern.Agreement
import DocTypes.Proofs.Scope

set_option autoImplicit false

/-!
# One outline compiled twice

Two compilations of one outline take the same way, whatever they bind its names to. Both stop at the
same fault, or both give a pattern; and a relation that holds between what its names are bound to
and that constructs inherit holds between these patterns.
-/

namespace DocTypes

/-- Both end with one fault, or both end well and with related results. -/
inductive SameOutcome {α β : Type} (R : α → β → Prop) : Except Fault α → Except Fault β → Prop where
  | fault (f : Fault) : SameOutcome R (.error f) (.error f)
  | result {a : α} {b : β} (h : R a b) : SameOutcome R (.ok a) (.ok b)

theorem SameOutcome.imp {α β : Type} {R S : α → β → Prop} {x : Except Fault α} {y : Except Fault β}
    (h : SameOutcome R x y) (hRS : ∀ a b, R a b → S a b) : SameOutcome S x y := by
  cases h with
  | fault e => exact .fault e
  | result h => exact .result (hRS _ _ h)

theorem SameOutcome.map {α β γ δ : Type} {R : α → β → Prop} {S : γ → δ → Prop} {f : α → γ}
    {g : β → δ} {x : Except Fault α} {y : Except Fault β} (h : SameOutcome R x y)
    (hf : ∀ a b, R a b → S (f a) (g b)) : SameOutcome S (x.map f) (y.map g) := by
  cases h with
  | fault e => exact .fault e
  | result h => exact .result (hf _ _ h)

namespace Outline

variable {σ τ : Type} {step : Text → σ → Pattern × σ} {step' : Text → τ → Pattern × τ}
  {R : Pattern → Pattern → Prop}

/-- From whatever states the two compilations begin. -/
def Lockstep (R : Pattern → Pattern → Prop) (step : Text → σ → Pattern × σ)
    (step' : Text → τ → Pattern × τ) (outline : Outline) : Prop :=
  ∀ s t, SameOutcome R (outline.compile step s).1 (outline.compile step' t).1

theorem lockstep_compileEach {outlines : List Outline}
    (h : ∀ outline ∈ outlines, outline.Lockstep R step step') (s : σ) (t : τ) :
    SameOutcome (List.Forall₂ R) (compileEach step outlines s).1
      (compileEach step' outlines t).1 := by
  induction outlines generalizing s t with
  | nil => exact .result .nil
  | cons outline more ih =>
    obtain ⟨ho, hm⟩ := List.forall_mem_cons.1 h
    have hxy := ho s t
    rw [compileEach, compileEach]
    rcases hx : outline.compile step s with ⟨x, s'⟩
    rcases hy : outline.compile step' t with ⟨y, t'⟩
    rw [hx, hy] at hxy
    cases hxy with
    | fault f => exact .fault f
    | result hpq => exact (ih hm s' t').map fun _ _ => .cons hpq

theorem lockstep_compileFields {fields : List (Text × Outline)}
    (h : ∀ field ∈ fields, field.2.Lockstep R step step') (s : σ) (t : τ) :
    SameOutcome (List.Forall₂ fun field other => field.1 = other.1 ∧ R field.2 other.2)
      (compileFields step fields s).1 (compileFields step' fields t).1 := by
  induction fields generalizing s t with
  | nil => exact .result .nil
  | cons field more ih =>
    obtain ⟨label, outline⟩ := field
    obtain ⟨ho, hm⟩ := List.forall_mem_cons.1 h
    have hxy := ho s t
    rw [compileFields, compileFields]
    rcases hx : outline.compile step s with ⟨x, s'⟩
    rcases hy : outline.compile step' t with ⟨y, t'⟩
    rw [hx, hy] at hxy
    cases hxy with
    | fault f => exact .fault f
    | result hpq => exact (ih hm s' t').map fun _ _ => .cons ⟨rfl, hpq⟩

theorem mem_leavesEach {outlines : List Outline} {outline : Outline} {leaf : Except Fault Text}
    (ho : outline ∈ outlines) (h : leaf ∈ outline.leaves) : leaf ∈ leavesEach outlines := by
  rw [leavesEach_eq_flatMap]
  exact List.mem_flatMap.2 ⟨outline, ho, h⟩

theorem mem_leavesFields {fields : List (Text × Outline)} {field : Text × Outline}
    {leaf : Except Fault Text} (hf : field ∈ fields) (h : leaf ∈ field.2.leaves) :
    leaf ∈ leavesFields fields := by
  rw [leavesFields_eq_flatMap]
  exact List.mem_flatMap.2 ⟨field, hf, h⟩

/-- If related things are bound to the names of an outline, related patterns are compiled. -/
theorem lockstep_of_names (hR : Pattern.Inherited R) (outline : Outline)
    (h : ∀ name, .ok name ∈ outline.leaves → ∀ s t, R (step name s).1 (step' name t).1) :
    outline.Lockstep R step step' := by
  induction outline with
  | blank => exact fun _ _ => .result hR.any
  | name n => exact fun s t => .result (h n (List.mem_singleton.2 rfl) s t)
  | union alternatives ih =>
    have hl := lockstep_compileEach fun outline ho => ih outline ho fun name hn =>
      h name (mem_leavesEach ho hn)
    exact fun s t => (hl s t).map fun _ _ => hR.union
  | list element ih => exact fun s t => (ih h s t).map fun _ _ => hR.list
  | tuple items ih =>
    have hl := lockstep_compileEach fun outline ho => ih outline ho fun name hn =>
      h name (mem_leavesEach ho hn)
    exact fun s t => (hl s t).map fun _ _ => hR.tuple
  | set element ih => exact fun s t => (ih h s t).map fun _ _ => hR.set
  | map key value ihk ihv =>
    intro s t
    have hxy := ihk (fun name hn => h name (List.mem_append_left _ hn)) s t
    have hv := ihv fun name hn => h name (List.mem_append_right _ hn)
    rw [compile, compile]
    rcases hx : key.compile step s with ⟨x, s'⟩
    rcases hy : key.compile step' t with ⟨y, t'⟩
    rw [hx, hy] at hxy
    cases hxy with
    | fault f => exact .fault f
    | result hk => exact (hv s' t').map fun _ _ => hR.map hk
  | record fields ih =>
    have hl := lockstep_compileFields fun field hf => ih field hf fun name hn =>
      h name (mem_leavesFields hf hn)
    exact fun s t => (hl s t).map fun _ _ => hR.record
  | fault f => exact fun _ _ => .fault f

end Outline

theorem Scope.sameOutcome {R : Pattern → Pattern → Prop} (hR : Pattern.Inherited R) {a b : Scope}
    (text : Text)
    (h : ∀ name, .ok name ∈ (Outline.read text).leaves → ∀ m n, R (a.bind m name) (b.bind n name))
    (m n : Nat) : SameOutcome R (a.patternAt? m text) (b.patternAt? n text) := by
  have hl : (Outline.read text).Lockstep R (a.bindNext m) (b.bindNext n) :=
    Outline.lockstep_of_names hR _ fun name hn _ _ => h name hn _ _
  exact hl {} {}

end DocTypes
