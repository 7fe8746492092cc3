import DocTypes.Proofs.Memory
import DocTypes.Session

set_option autoImplicit false

/-!
# Calls

A call is a checker compiling one text. The actions of a session make calls, and apart from them
they only add to the catalog, install a resolver or start a run.
-/

namespace DocTypes

/-- A checker is asked for the pattern of a text, at a desk as the call finds it. -/
structure Call where
  checker : Nat
  desk : Desk
  text : Text

def Call.answer (call : Call) : Except Fault Compiled := (call.desk.compile call.text).2

def Call.declared (call : Call) : Except Fault Declared :=
  call.answer.map fun compiled => ⟨call.text, compiled.pattern⟩

namespace Desk

/-- The calls of a checker that compiles texts one after the other, up to the first fault. -/
def calls (checker : Nat) (desk : Desk) : List Text → List Call
  | [] => []
  | text :: more =>
    ⟨checker, desk, text⟩ :: match desk.compile text with
      | (after, .ok _) => after.calls checker more
      | (_, .error _) => []

/-- The desk when all these calls are made. -/
def afterCalls (desk : Desk) : List Text → Desk
  | [] => desk
  | text :: more =>
    match desk.compile text with
    | (after, .ok _) => after.afterCalls more
    | (after, .error _) => after

end Desk

namespace Signature

def parameterTexts (doc : Text) : List Parameter → List Text
  | [] => []
  | parameter :: more => (DocComment.declared? doc parameter.name).toList ++ parameterTexts doc more

/-- The declared types, in the order in which they are compiled. -/
def texts (signature : Signature) : List Text :=
  match signature.doc? with
  | some doc => parameterTexts doc signature.parameters ++ (DocComment.returned? doc).toList
  | none => []

end Signature

namespace Action

/-- The texts that an action compiles, up to the first fault. -/
def texts : Action → List Text
  | compile text => [text]
  | checkText text _ _ _ => [text]
  | draft signature => signature.texts
  | _ => []

end Action

/-- What an action makes of the desk it is done at. -/
def Desk.perform (desk : Desk) : Action → Desk
  | .register name type => { desk with catalog := desk.catalog.register name type }
  | .registerClass c => { desk with catalog := desk.catalog.registerClass c }
  | .install resolver? => { desk with checker := desk.checker.install resolver? }
  | .startRun => { desk with checker := desk.checker.startRun }
  | action => desk.afterCalls action.texts

namespace Session

/-- The desk at which the checker of that index works next. -/
def desk? (session : Session) (index : Nat) : Option Desk :=
  session.checkers[index]?.map fun checker => ⟨session.catalog, checker, [], session.moment⟩

/-- All calls of a run, in order. -/
def calls (session : Session) : List (Nat × Action) → List Call
  | [] => []
  | (index, action) :: more =>
    (match session.desk? index with
      | some desk => desk.calls index action.texts
      | none => []) ++ (session.step index action).1.calls more

theorem desk?_eq_some_iff {session : Session} {index : Nat} {desk : Desk} :
    session.desk? index = some desk ↔ ∃ checker, session.checkers[index]? = some checker ∧
      desk = ⟨session.catalog, checker, [], session.moment⟩ := by
  rw [desk?, Option.map_eq_some_iff]
  exact exists_congr fun checker => and_congr_right fun _ => eq_comm

end Session

namespace Desk

variable {desk after : Desk} {text : Text} {more : List Text}

theorem calls_of_ok {compiled : Compiled} (h : desk.compile text = (after, .ok compiled))
    (checker : Nat) : desk.calls checker (text :: more) =
      ⟨checker, desk, text⟩ :: after.calls checker more := by
  rw [calls, h]

theorem calls_of_error {f : Fault} (h : desk.compile text = (after, .error f)) (checker : Nat) :
    desk.calls checker (text :: more) = [⟨checker, desk, text⟩] := by
  rw [calls, h]

theorem afterCalls_of_ok {compiled : Compiled} (h : desk.compile text = (after, .ok compiled)) :
    desk.afterCalls (text :: more) = after.afterCalls more := by
  rw [afterCalls, h]

theorem afterCalls_of_error {f : Fault} (h : desk.compile text = (after, .error f)) :
    desk.afterCalls (text :: more) = after := by
  rw [afterCalls, h]

theorem calls_singleton (desk : Desk) (checker : Nat) (text : Text) :
    desk.calls checker [text] = [⟨checker, desk, text⟩] := by
  rcases hc : desk.compile text with ⟨after, f | compiled⟩
  · exact calls_of_error hc checker
  · exact calls_of_ok hc checker

theorem afterCalls_singleton (desk : Desk) (text : Text) :
    desk.afterCalls [text] = (desk.compile text).1 := by
  unfold afterCalls
  split
  case h_1 after compiled h => rw [h, afterCalls]
  case h_2 after f h => rw [h]

/-- What each call keeps is kept by all. -/
theorem afterCalls_of_kept {motive : Desk → Prop}
    (hk : ∀ desk text, motive desk → motive (desk.compile text).1) (h : motive desk)
    (texts : List Text) : motive (desk.afterCalls texts) := by
  induction texts generalizing desk with
  | nil => exact h
  | cons text more ih =>
    have ha := hk desk text h
    rcases hc : desk.compile text with ⟨after, f | compiled⟩
    · rw [hc] at ha
      rwa [afterCalls_of_error hc]
    · rw [hc] at ha
      rw [afterCalls_of_ok hc]
      exact ih ha

section Append

variable {checker : Nat} {first : List Text}

theorem declared_cons_of_ok {compiled : Compiled}
    (h : desk.compile text = (after, .ok compiled)) :
    (desk.calls checker (text :: more)).mapM Call.declared =
      ((after.calls checker more).mapM Call.declared).map (⟨text, compiled.pattern⟩ :: ·) := by
  have hd : Call.declared ⟨checker, desk, text⟩ = .ok ⟨text, compiled.pattern⟩ := by
    rw [Call.declared, Call.answer, h]
    rfl
  rw [calls_of_ok h, List.mapM_cons, hd]
  cases (after.calls checker more).mapM Call.declared <;> rfl

theorem declared_cons_of_error {f : Fault} (h : desk.compile text = (after, .error f)) :
    (desk.calls checker (text :: more)).mapM Call.declared = .error f := by
  have hd : Call.declared ⟨checker, desk, text⟩ = .error f := by
    rw [Call.declared, Call.answer, h]
    rfl
  rw [calls_of_error h, List.mapM_cons, hd]
  rfl

/-- After a fault no further call is made. -/
theorem calls_append_of_error {f : Fault} (more : List Text)
    (h : (desk.calls checker first).mapM Call.declared = .error f) :
    desk.calls checker (first ++ more) = desk.calls checker first ∧
      desk.afterCalls (first ++ more) = desk.afterCalls first := by
  induction first generalizing desk with
  | nil => cases h
  | cons text rest ih =>
    rw [List.cons_append]
    rcases hc : desk.compile text with ⟨after, f' | compiled⟩
    · simp only [calls_of_error hc, afterCalls_of_error hc, and_self]
    · rw [declared_cons_of_ok hc] at h
      cases hr : (after.calls checker rest).mapM Call.declared with
      | ok declared =>
        rw [hr] at h
        cases h
      | error f' =>
        rw [hr] at h
        obtain rfl := Except.error.inj h
        have hi := ih hr
        simp only [calls_of_ok hc, afterCalls_of_ok hc, hi.1, hi.2, and_self]

theorem calls_append_of_ok {declared : List Declared} (more : List Text)
    (h : (desk.calls checker first).mapM Call.declared = .ok declared) :
    desk.calls checker (first ++ more) =
        desk.calls checker first ++ (desk.afterCalls first).calls checker more ∧
      desk.afterCalls (first ++ more) = (desk.afterCalls first).afterCalls more := by
  induction first generalizing desk declared with
  | nil => exact ⟨rfl, rfl⟩
  | cons text rest ih =>
    rw [List.cons_append]
    rcases hc : desk.compile text with ⟨after, f | compiled⟩
    · rw [declared_cons_of_error hc] at h
      cases h
    · rw [declared_cons_of_ok hc] at h
      cases hr : (after.calls checker rest).mapM Call.declared with
      | error f =>
        rw [hr] at h
        cases h
      | ok others =>
        have hi := ih hr
        simp only [calls_of_ok hc, afterCalls_of_ok hc, hi.1, hi.2, List.cons_append, and_self]

end Append

end Desk

/-- The types that a contract asks for, in the order in which they were compiled. -/
def Contract.declared (contract : Contract) : List Declared :=
  contract.slots.filterMap Slot.declared? ++ contract.returned?.toList

namespace Signature

theorem draftSlots_eq (entity doc : Text) (checker : Nat) (isFirst : Bool)
    (parameters : List Parameter) (desk : Desk) :
    (draftSlots entity doc isFirst parameters desk).1 =
        desk.afterCalls (parameterTexts doc parameters) ∧
      (draftSlots entity doc isFirst parameters desk).2.2.map (·.filterMap Slot.declared?) =
        (desk.calls checker (parameterTexts doc parameters)).mapM Call.declared := by
  induction parameters generalizing desk isFirst with
  | nil => exact ⟨rfl, rfl⟩
  | cons parameter more ih =>
    cases hd : DocComment.declared? doc parameter.name with
    | none =>
      obtain ⟨hl, hr⟩ := ih false desk
      rw [parameterTexts, hd, Option.toList_none, List.nil_append, ← hl, ← hr]
      simp only [draftSlots, hd, true_and]
      cases (draftSlots entity doc false more desk).2.2 <;> rfl
    | some text =>
      rw [parameterTexts, hd, Option.toList_some, List.singleton_append]
      rcases hc : desk.compile text with ⟨after, f | compiled⟩
      · rw [Desk.afterCalls_of_error hc, Desk.declared_cons_of_error hc]
        simp only [draftSlots, hd, hc, true_and]
        rfl
      · obtain ⟨hl, hr⟩ := ih false after
        rw [Desk.afterCalls_of_ok hc, Desk.declared_cons_of_ok hc, ← hl, ← hr]
        simp only [draftSlots, hd, hc, true_and]
        cases (draftSlots entity doc false more after).2.2 <;> rfl

theorem draftReturned_eq (doc : Text) (checker : Nat) (desk : Desk) :
    (draftReturned doc desk).1 = desk.afterCalls (DocComment.returned? doc).toList ∧
      (draftReturned doc desk).2.map Option.toList =
        (desk.calls checker (DocComment.returned? doc).toList).mapM Call.declared := by
  cases hd : DocComment.returned? doc with
  | none =>
    simp only [draftReturned, hd]
    exact ⟨rfl, rfl⟩
  | some text =>
    rcases hc : desk.compile text with ⟨after, f | compiled⟩
    · rw [Option.toList_some, Desk.afterCalls_of_error hc, Desk.declared_cons_of_error hc]
      simp only [draftReturned, hd, hc, true_and]
      rfl
    · rw [Option.toList_some, Desk.afterCalls_of_ok hc, Desk.declared_cons_of_ok hc]
      simp only [draftReturned, hd, hc]
      exact ⟨rfl, rfl⟩

/-- Drafting does nothing at the desk but its calls, and what it declares is what they answer. -/
theorem draft_eq (signature : Signature) (checker : Nat) (desk : Desk) :
    (signature.draft desk).1 = desk.afterCalls signature.texts ∧
      (signature.draft desk).2.2.map Contract.declared =
        (desk.calls checker signature.texts).mapM Call.declared := by
  cases hd : signature.doc? with
  | none =>
    simp only [draft, texts, hd]
    refine ⟨rfl, ?_⟩
    have hs : signature.parameters.filterMap
        (Slot.declared? ∘ fun parameter => ⟨parameter.name, none⟩) = [] :=
      List.filterMap_eq_nil_iff.2 fun _ _ => rfl
    simp only [Except.map, Contract.declared, undocumented, List.filterMap_map, hs]
    rfl
  | some doc =>
    simp only [draft, texts, hd, draftDocumented]
    obtain ⟨hl, hr⟩ := draftSlots_eq signature.entity doc checker true signature.parameters desk
    rcases hs : draftSlots signature.entity doc true signature.parameters desk with
      ⟨after, notices, f | slots⟩
    · rw [hs] at hl hr
      have ha := Desk.calls_append_of_error (DocComment.returned? doc).toList hr.symm
      rw [ha.1, ha.2, ← hl, ← hr]
      exact ⟨rfl, rfl⟩
    · rw [hs] at hl hr
      have ha := Desk.calls_append_of_ok (DocComment.returned? doc).toList hr.symm
      rw [ha.1, ha.2, List.mapM_append, ← hl, ← hr]
      obtain ⟨kl, kr⟩ := draftReturned_eq doc checker after
      rcases hret : draftReturned doc after with ⟨last, f | returned?⟩
      · rw [hret] at kl kr
        rw [← kl, ← kr]
        simp only [hret, true_and]
        rfl
      · rw [hret] at kl kr
        rw [← kl, ← kr]
        simp only [hret, true_and]
        rfl

end Signature

end DocTypes
