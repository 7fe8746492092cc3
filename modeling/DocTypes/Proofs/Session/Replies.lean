import DocTypes.Proofs.Session.Calls

set_option autoImplicit false

/-!
# Replies

A session that compiles texts for an action replies with what the calls of that action are answered
with: the pattern, the verdict on a value by it, the contract of the declared types, or the fault.
-/

namespace DocTypes

/-- The reply that a result makes, if it is not a fault. -/
def Reply.ofResult {α : Type} (reply : α → Reply) : Except Fault α → Reply
  | .ok a => reply a
  | .error f => .fault f

namespace Session

/-- The reply to an action tells the answers to its calls, and an action that tells none makes no
call. -/
def Tells (session : Session) (index : Nat) (calls : List Call) : Action → Reply → Prop
  | .compile text, reply => ∃ call : Call, calls = [call] ∧ call.text = text ∧
    reply = .ofResult (fun compiled => .compiled session.handles.length compiled.pattern
      (session.earlier? index compiled)) call.answer
  | .checkText text value slot entity, reply => ∃ call : Call, calls = [call] ∧ call.text = text ∧
    reply = .ofResult (fun compiled => .verdict (call.desk.checker.policy.judge (Text.trim text)
      compiled.pattern value slot entity)) call.answer
  | .draft signature, reply =>
    reply = .ofResult (fun _ => .drafted session.contracts.length signature.entity)
      (calls.mapM Call.declared)
  | _, _ => calls = []

/-- The replies to the actions of a run tell, one by one, the answers to the calls of the run. -/
def Told (session : Session) : List (Nat × Action) → List Reply → Prop
  | [], replies => replies = []
  | _ :: _, [] => False
  | (index, action) :: more, reply :: replies =>
    (match session.desk? index with
      | some desk => session.Tells index (desk.calls index action.texts) action reply
      | none => reply = .absent) ∧ (session.step index action).1.Told more replies

end Session

theorem Signature.entity_of_draft {signature : Signature} {desk : Desk} {contract : Contract}
    (h : (signature.draft desk).2.2 = .ok contract) : contract.entity = signature.entity := by
  unfold draft at h
  split at h
  case h_2 => rw [← Except.ok.inj h, undocumented]
  case h_1 doc _ =>
    unfold draftDocumented at h
    split at h
    case h_1 => cases h
    case h_2 =>
      split at h
      case h_1 => cases h
      case h_2 => rw [← Except.ok.inj h]

namespace Session

theorem tells_act (session : Session) (index : Nat) (desk : Desk) (action : Action) :
    session.Tells index (desk.calls index action.texts) action
      (session.act index desk action).2 := by
  cases action with
  | compile text =>
    refine ⟨⟨index, desk, text⟩, desk.calls_singleton index text, rfl, ?_⟩
    simp only [act, compile, Call.answer]
    rcases desk.compile text with ⟨after, f | compiled⟩ <;> rfl
  | checkText text value slot entity =>
    refine ⟨⟨index, desk, text⟩, desk.calls_singleton index text, rfl, ?_⟩
    simp only [act, Desk.check, Call.answer]
    rcases desk.compile text with ⟨after, f | compiled⟩ <;> rfl
  | draft signature =>
    have hr := (signature.draft_eq index desk).2
    simp only [Tells, Action.texts, ← hr, act, draft]
    rcases hd : signature.draft desk with ⟨after, notices, f | contract⟩
    · rfl
    · have he := Signature.entity_of_draft (congrArg (·.2.2) hd)
      simp only [contracts_report, afterDesk, he]
      rfl
  | _ => exact rfl

theorem tells_step {session : Session} {index : Nat} {desk : Desk}
    (h : session.desk? index = some desk) (action : Action) :
    session.Tells index (desk.calls index action.texts) action (session.step index action).2 := by
  obtain ⟨checker, hk, rfl⟩ := desk?_eq_some_iff.1 h
  have ha := tells_act { session with journal := [] } index
    ⟨session.catalog, checker, [], session.moment⟩ action
  rw [step, hk]
  cases action <;> exact ha

/-- Whatever resolvers do, the replies of a run tell the answers to its calls. -/
theorem told_run (session : Session) (run : List (Nat × Action)) :
    session.Told run (session.run run).2 := by
  induction run generalizing session with
  | nil => rfl
  | cons entry more ih =>
    obtain ⟨index, action⟩ := entry
    refine ⟨?_, ih _⟩
    cases hi : session.desk? index with
    | some desk => exact tells_step hi action
    | none =>
      have hk : session.checkers[index]? = none := Option.map_eq_none_iff.1 hi
      simp only [hk]

end Session

end DocTypes
