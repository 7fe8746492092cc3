import DocTypes.Proofs.Faults
import DocTypes.Proofs.Reactions
import DocTypes.Proofs.Session.Freshness

set_option autoImplicit false

/-!
# Answers and texts

Whether a text is at fault, and which fault it has, depends on the text alone. A checker that
remembers patterns answers accordingly: what it remembers for a text is a pattern of that text,
wherever and with whatever resolver it was built.
-/

namespace DocTypes

/-- The text has this fault, whatever its names denote. -/
def Fault.In (f : Fault) (text : Text) : Prop :=
  ∀ (scope : Scope) (moment : Nat), scope.patternAt? moment text = .error f

theorem Fault.in_iff {f : Fault} {text : Text} :
    f.In text ↔ (Outline.read text).fill .unresolved = .error f :=
  ⟨fun h => Scope.patternAt?_eq_error_iff.1 (h ⟨.withBuiltins, none⟩ 0),
    fun h _ _ => Scope.patternAt?_eq_error_iff.2 h⟩

namespace Checker

/-- What is remembered for a text is a pattern of the text. -/
def Faithful (checker : Checker) : Prop :=
  ∀ (text : Text) (entry : Stamp × Compiled), checker.memo.last? text = some entry →
    (Outline.read text).fill .unresolved = .ok entry.2.pattern.bare

variable {checker after : Checker}

theorem Faithful.of_last? (h : checker.Faithful)
    (hm : ∀ (text : Text) (entry : Stamp × Compiled), after.memo.last? text = some entry →
      checker.memo.last? text = some entry) : after.Faithful :=
  fun text entry he => h text entry (hm text entry he)

theorem faithful_of_empty (h : checker.memo = .empty) : checker.Faithful := by
  intro text entry he
  rw [h] at he
  cases he

theorem Faithful.keep (h : checker.Faithful) {text : Text} {pattern : Pattern}
    (hp : (Outline.read text).fill .unresolved = .ok pattern.bare) (stamp : Stamp)
    (unresolved : List Text) : (checker.keep text stamp pattern unresolved).Faithful := by
  intro other entry he
  rw [Checker.keep, Memo.last?_put] at he
  split at he
  case isTrue ht =>
    cases he
    exact ht ▸ hp
  case isFalse => exact h other entry he

end Checker

namespace Desk

variable {desk : Desk}

/-- A call is answered with a pattern of the text or with its fault, and a memory that was faithful
stays so. -/
theorem faithful_compile (h : desk.checker.Faithful) (text : Text) :
    (desk.compile text).1.checker.Faithful ∧
      (desk.compile text).2.map (fun compiled => compiled.pattern.bare) =
        (Outline.read text).fill .unresolved := by
  cases hg : desk.checker.memo.get? text desk.stamp with
  | some compiled =>
    simp only [compile, deliver, hg]
    exact ⟨h, (h text _ (Memo.get?_eq_some_iff.1 hg)).symm⟩
  | none =>
    have hb := desk.scope.patternAt?_bare desk.moment text
    have ha := h.of_last? (desk.reacts_askAll desk.checker.resolver?
      (desk.scope.compileAt desk.moment text).asked).memo
    rw [Scope.patternAt?] at hb
    cases hr : (desk.scope.compileAt desk.moment text).result with
    | error f =>
      rw [hr] at hb
      simp only [compile, deliver, hg, hr]
      exact ⟨ha, hb⟩
    | ok pattern =>
      rw [hr] at hb
      simp only [compile, deliver, hg, hr]
      exact ⟨ha.keep hb.symm _ _, hb⟩

theorem compile_eq_error_iff (h : desk.checker.Faithful) {text : Text} {f : Fault} :
    (desk.compile text).2 = .error f ↔ f.In text := by
  rw [Fault.in_iff, ← (faithful_compile h text).2]
  cases (desk.compile text).2 with
  | error g => simp only [Except.map, Except.error.injEq]
  | ok compiled => exact iff_of_false (fun h => by cases h) (fun h => by cases h)

theorem faithful_afterCalls (h : desk.checker.Faithful) (texts : List Text) :
    (desk.afterCalls texts).checker.Faithful :=
  afterCalls_of_kept (motive := fun later => later.checker.Faithful)
    (fun _ text hd => (faithful_compile hd text).1) h texts

theorem faithful_perform (h : desk.checker.Faithful) (action : Action) :
    (desk.perform action).checker.Faithful := by
  cases action with
  | register | registerClass => exact h
  | install | startRun => exact Checker.faithful_of_empty rfl
  | _ => exact faithful_afterCalls h _

end Desk

namespace Session

variable {session : Session}

theorem faithful_step (h : ∀ checker ∈ session.checkers, checker.Faithful) (index : Nat)
    (action : Action) :
    ∀ checker ∈ (session.step index action).1.checkers, checker.Faithful := by
  cases hi : session.desk? index with
  | none =>
    rw [step_of_none hi]
    exact h
  | some desk =>
    obtain ⟨own, hk, rfl⟩ := desk?_eq_some_iff.1 hi
    rw [(step_fields hi action).2]
    intro checker hc
    rcases List.mem_or_eq_of_mem_set hc with hc | rfl
    · exact h checker hc
    · exact Desk.faithful_perform (h own (List.mem_of_getElem? hk)) action

theorem faithful_run (h : ∀ checker ∈ session.checkers, checker.Faithful)
    (run : List (Nat × Action)) :
    ∀ checker ∈ (session.run run).1.checkers, checker.Faithful := by
  induction run generalizing session with
  | nil => exact h
  | cons entry more ih => exact ih (faithful_step h entry.1 entry.2)

theorem faithful_start (catalog : Catalog) (policies : List Policy) (collects : Bool) :
    ∀ checker ∈ (start catalog policies collects).checkers, checker.Faithful := by
  intro checker hc
  obtain ⟨policy, -, rfl⟩ := List.mem_map.1 hc
  exact Checker.faithful_of_empty rfl

/-- Whatever was done in a session, its checkers answer with patterns of the texts or with their
faults. -/
theorem faithful_desk? {catalog : Catalog} {policies : List Policy} {collects : Bool}
    {run : List (Nat × Action)} {index : Nat} {desk : Desk}
    (h : ((start catalog policies collects).run run).1.desk? index = some desk) :
    desk.checker.Faithful := by
  obtain ⟨checker, hk, rfl⟩ := desk?_eq_some_iff.1 h
  exact faithful_run (faithful_start catalog policies collects) run checker
    (List.mem_of_getElem? hk)

end Session

end DocTypes
