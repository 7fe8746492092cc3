import DocTypes.Proofs.Outline.Form
import DocTypes.Proofs.Session.Freshness

set_option autoImplicit false

/-!
# Calls under a contract

A contract keeps the patterns that it was drafted with, whatever is done afterwards. A call under it
hands the arguments on and the result back; all it adds is to tell which values are rejected, those
for the parameters before the callable is called and the result after that.
-/

namespace DocTypes

namespace Declared

/-- What there is to tell about a value that the declared type rejects. -/
def rejection? (declared : Declared) (policy : Policy) (value : Value) (slot entity : Text) :
    Option Notice :=
  if policy.accepts declared.pattern value then none
  else some (.mismatch (.ofValue policy.detail entity slot declared.text value))

theorem isNone_rejection? (declared : Declared) (policy : Policy) (value : Value)
    (slot entity : Text) : (declared.rejection? policy value slot entity).isNone =
      declared.accepts policy value := by
  unfold rejection? accepts
  cases policy.accepts declared.pattern value <;> rfl

theorem notices_eq (declared : Declared) (policy : Policy) (value : Value) (slot entity : Text) :
    declared.notices policy value slot entity =
      (declared.rejection? policy value slot entity).toList := by
  unfold notices judge Policy.judge rejection?
  split <;> rfl

end Declared

namespace Contract

variable (contract : Contract) (arguments : List Value) (keywords : Keywords)

/-- What there is to tell about the value that is supplied for a parameter: the argument at its
place, or else the first keyword of its name. -/
def rejection? (slot : Slot) (index : Nat) : Option Notice :=
  slot.declared?.bind fun declared =>
    (arguments[index]? <|> keywords.find? slot.name).bind fun value =>
      declared.rejection? contract.policy value slot.name contract.entity

/-- One notice for each parameter whose value is rejected, in the order of the parameters. -/
def rejections : List Notice :=
  contract.slots.zipIdx.filterMap fun entry =>
    contract.rejection? arguments keywords entry.1 entry.2

def returnRejection? (result : Value) : Option Notice :=
  contract.returned?.bind fun declared =>
    declared.rejection? contract.policy result Mismatch.returnSlot contract.entity

theorem slotNotices_cons (index : Nat) (slot : Slot) (more : List Slot) :
    contract.slotNotices arguments keywords index (slot :: more) =
      (contract.rejection? arguments keywords slot index).toList ++
        contract.slotNotices arguments keywords (index + 1) more := by
  rw [slotNotices]
  refine congrArg (· ++ _) ?_
  unfold rejection?
  cases slot.declared? with
  | none => rfl
  | some declared =>
    rw [Option.bind_some]
    cases arguments[index]? <|> keywords.find? slot.name with
    | none => rfl
    | some value => exact declared.notices_eq ..

theorem slotNotices_eq (index : Nat) (slots : List Slot) :
    contract.slotNotices arguments keywords index slots =
      (slots.zipIdx index).filterMap fun entry =>
        contract.rejection? arguments keywords entry.1 entry.2 := by
  induction slots generalizing index with
  | nil => rfl
  | cons slot more ih =>
    rw [slotNotices_cons, ih, List.zipIdx_cons, List.filterMap_cons]
    cases contract.rejection? arguments keywords slot index <;> rfl

theorem callNotices_eq :
    contract.callNotices arguments keywords = contract.rejections arguments keywords :=
  contract.slotNotices_eq arguments keywords 0 contract.slots

theorem returnNotices_eq (result : Value) :
    contract.returnNotices result = (contract.returnRejection? result).toList := by
  unfold returnNotices returnRejection?
  cases contract.returned? with
  | none => rfl
  | some declared => exact declared.notices_eq ..

theorem acceptsReturned_eq (result : Value) :
    contract.acceptsReturned result = (contract.returnRejection? result).isNone := by
  unfold acceptsReturned returnRejection?
  cases contract.returned? with
  | none => rfl
  | some declared => exact (declared.isNone_rejection? ..).symm

/-- In any world in which things are told and called, a call tells what is rejected of the values
for the parameters, calls the callable once and with the very arguments, tells what is rejected of
its result, and gives the result back. -/
def Transparent : Prop :=
  ∀ {ω : Type} (tell : ω → Notice → ω) (f : List Value → Keywords → StateM ω Value)
    (arguments : List Value) (keywords : Keywords) (world : ω),
    (contract.call (fun notice => modify (tell · notice)) f arguments keywords).run world =
      let before := (contract.rejections arguments keywords).foldl tell world
      let (result, after) := (f arguments keywords).run before
      (result, (contract.returnRejection? result).toList.foldl tell after)

theorem transparent : contract.Transparent := by
  intro ω tell f arguments keywords world
  have h := contract.run_call tell f arguments keywords world
  simp only [callNotices_eq, returnNotices_eq] at h
  exact h

end Contract

/-- The contract has a slot for each parameter of the signature, in order. Its types are those that
the doc comment declares, and their patterns are what the checker has answered for them at that
desk. -/
structure Contract.DraftedFrom (contract : Contract) (signature : Signature) (index : Nat)
    (desk : Desk) : Prop where
  policy : contract.policy = desk.checker.policy
  entity : contract.entity = signature.entity
  names : contract.slots.map Slot.name = signature.parameters.map Parameter.name
  texts : contract.slots.map (fun slot => slot.declared?.map Declared.text) =
    signature.parameters.map fun parameter =>
      signature.doc?.bind fun doc => DocComment.declared? doc parameter.name
  returned : contract.returned?.map Declared.text = signature.doc?.bind DocComment.returned?
  declared : (desk.calls index signature.texts).mapM Call.declared = .ok contract.declared

namespace Signature

open Outline (exists_of_map_eq_ok)

theorem slots_of_draftSlots {entity doc : Text} {isFirst : Bool} {parameters : List Parameter}
    {desk : Desk} {slots : List Slot}
    (h : (draftSlots entity doc isFirst parameters desk).2.2 = .ok slots) :
    slots.map Slot.name = parameters.map Parameter.name ∧
      slots.map (fun slot => slot.declared?.map Declared.text) =
        parameters.map fun parameter => DocComment.declared? doc parameter.name := by
  induction parameters generalizing isFirst desk slots with
  | nil =>
    obtain rfl := Except.ok.inj h
    exact ⟨rfl, rfl⟩
  | cons parameter more ih =>
    rw [draftSlots] at h
    cases hd : DocComment.declared? doc parameter.name with
    | none =>
      simp only [hd] at h
      obtain ⟨others, ho, rfl⟩ := exists_of_map_eq_ok h
      obtain ⟨hn, ht⟩ := ih ho
      simp only [List.map_cons, hn, ht, hd, Option.map_none, and_self]
    | some text =>
      simp only [hd] at h
      rcases hc : desk.compile text with ⟨after, f | compiled⟩
      · simp only [hc] at h
        cases h
      · simp only [hc] at h
        obtain ⟨others, ho, rfl⟩ := exists_of_map_eq_ok h
        obtain ⟨hn, ht⟩ := ih ho
        simp only [List.map_cons, hn, ht, hd, Option.map_some, and_self]

theorem text_of_draftReturned {doc : Text} {desk : Desk} {returned? : Option Declared}
    (h : (draftReturned doc desk).2 = .ok returned?) :
    returned?.map Declared.text = DocComment.returned? doc := by
  rw [draftReturned] at h
  cases hd : DocComment.returned? doc with
  | none =>
    simp only [hd] at h
    obtain rfl := Except.ok.inj h
    rfl
  | some text =>
    simp only [hd] at h
    rcases hc : desk.compile text with ⟨after, f | compiled⟩
    · simp only [hc] at h
      cases h
    · simp only [hc] at h
      obtain rfl := Except.ok.inj h
      rfl

theorem draftedFrom_of_draft {signature : Signature} {desk : Desk} {contract : Contract}
    (h : (signature.draft desk).2.2 = .ok contract) (index : Nat) :
    contract.DraftedFrom signature index desk := by
  have hc := (signature.draft_eq index desk).2
  rw [h] at hc
  cases hd : signature.doc? with
  | none =>
    simp only [draft, hd] at h
    obtain rfl := Except.ok.inj h
    refine ⟨rfl, rfl, ?_, ?_, ?_, hc.symm⟩
    · rw [undocumented, List.map_map]
      rfl
    · rw [undocumented, List.map_map, hd]
      rfl
    · rw [undocumented, hd]
      rfl
  | some doc =>
    simp only [draft, hd, draftDocumented] at h
    rcases hs : draftSlots signature.entity doc true signature.parameters desk with
      ⟨after, notices, f | slots⟩
    · simp only [hs] at h
      cases h
    · rcases hr : draftReturned doc after with ⟨last, f | returned?⟩
      · simp only [hs, hr] at h
        cases h
      · simp only [hs, hr] at h
        obtain rfl := Except.ok.inj h
        obtain ⟨hn, ht⟩ := slots_of_draftSlots (congrArg (·.2.2) hs)
        have hret := text_of_draftReturned (congrArg Prod.snd hr)
        exact ⟨rfl, rfl, hn, by rwa [hd], by rwa [hd], hc.symm⟩

end Signature

namespace Session

variable {session : Session} {index handle : Nat}

/-- The session after notices are told, which changes nothing that an action depends on. -/
def told (session : Session) (notices : List Notice) : Session :=
  { session with
    journal := []
    pending := if session.collects then session.pending ++ notices else session.pending }

theorem report_eq_told (session : Session) (notices : List Notice) :
    { session with journal := [] }.report notices = session.told notices := by
  unfold report told
  cases hc : session.collects <;> rfl

/-- In this session the handle stands for the contract: calls and results are checked by it, and
nothing but what it tells is different afterwards. -/
structure Serves (session : Session) (index handle : Nat) (contract : Contract) : Prop where
  checkCall (arguments : List Value) (keywords : Keywords) :
    session.step index (.checkCall handle arguments keywords) =
      (session.told (contract.rejections arguments keywords),
        .count (contract.rejections arguments keywords).length)
  checkReturn (result : Value) :
    session.step index (.checkReturn handle result) =
      (session.told (contract.returnRejection? result).toList,
        .flag (contract.returnRejection? result).isNone)
  call (f : List Value → Keywords → Value) (arguments : List Value) (keywords : Keywords) :
    session.step index (.call handle f arguments keywords) =
      (session.told (contract.rejections arguments keywords ++
        (contract.returnRejection? (f arguments keywords)).toList), .value (f arguments keywords))

theorem serves_of_getElem? {desk : Desk} (hi : session.desk? index = some desk)
    {contract : Contract} (h : session.contracts[handle]? = some contract) :
    session.Serves index handle contract := by
  obtain ⟨checker, hk, rfl⟩ := desk?_eq_some_iff.1 hi
  constructor
  · intro arguments keywords
    rw [← contract.callNotices_eq, ← report_eq_told, contract.length_callNotices]
    simp only [step, hk, act, h]
  · intro result
    rw [← contract.returnNotices_eq, ← report_eq_told, ← contract.acceptsReturned_eq]
    simp only [step, hk, act, h]
  · intro f arguments keywords
    rw [← contract.callNotices_eq, ← contract.returnNotices_eq, ← report_eq_told]
    have hc : ({ session with journal := [] } : Session).contracts[handle]? = some contract := h
    simp only [step, hk]
    rw [act_call hc]

theorem contracts_prefix_report (session : Session) (notices : List Notice) :
    session.contracts <+: (session.report notices).contracts := by
  simp only [contracts_report, List.prefix_refl]

/-- Contracts are only added, behind those that are there. -/
theorem contracts_prefix_act (session : Session) (index : Nat) (desk : Desk) (action : Action) :
    session.contracts <+: (session.act index desk action).1.contracts := by
  cases action with
  | draft signature =>
    simp only [act, draft]
    rcases signature.draft desk with ⟨after, notices, f | contract⟩
    · exact contracts_prefix_report (session.afterDesk index after) notices
    · exact (contracts_prefix_report (session.afterDesk index after) notices).trans
        (List.prefix_append ..)
  | compile text =>
    simp only [act, compile]
    split <;> exact List.prefix_refl _
  | call handle f arguments keywords =>
    cases hf : session.contracts[handle]? with
    | some found =>
      simp only [act_call hf]
      exact session.contracts_prefix_report _
    | none =>
      simp only [act, hf]
      exact List.prefix_refl _
  | checkCall | checkReturn =>
    simp only [act]
    split
    · exact session.contracts_prefix_report _
    · exact List.prefix_refl _
  | check | checkText =>
    simp only [act]
    split <;> exact List.prefix_refl _
  | register | registerClass | install | startRun | contains => exact List.prefix_refl _

theorem contracts_prefix_step (session : Session) (index : Nat) (action : Action) :
    session.contracts <+: (session.step index action).1.contracts := by
  simp only [step]
  split
  · exact contracts_prefix_act { session with journal := [] } ..
  · exact List.prefix_refl _

theorem contracts_prefix_run (session : Session) (run : List (Nat × Action)) :
    session.contracts <+: (session.run run).1.contracts := by
  induction run generalizing session with
  | nil => exact List.prefix_refl _
  | cons entry more ih => exact (session.contracts_prefix_step entry.1 entry.2).trans (ih _)

theorem isSome_desk?_iff : (session.desk? index).isSome ↔ index < session.checkers.length := by
  rw [desk?, Option.isSome_map, isSome_getElem?]

theorem length_checkers_step (session : Session) (index : Nat) (action : Action) :
    (session.step index action).1.checkers.length = session.checkers.length := by
  cases h : session.desk? index with
  | none => rw [step_of_none h]
  | some desk => rw [(step_fields h action).2, List.length_set]

theorem length_checkers_run (session : Session) (run : List (Nat × Action)) :
    (session.run run).1.checkers.length = session.checkers.length := by
  induction run generalizing session with
  | nil => rfl
  | cons entry more ih => exact (ih _).trans (session.length_checkers_step entry.1 entry.2)

/-- Checkers are there for good. -/
theorem exists_desk?_run {desk : Desk} (h : session.desk? index = some desk)
    (run : List (Nat × Action)) : ∃ last, (session.run run).1.desk? index = some last := by
  rw [← Option.isSome_iff_exists, isSome_desk?_iff, length_checkers_run, ← isSome_desk?_iff, h,
    Option.isSome_some]

theorem exists_of_step_draft {signature : Signature} {entity : Text}
    (h : (session.step index (.draft signature)).2 = .drafted handle entity) :
    ∃ desk contract, session.desk? index = some desk ∧
      (signature.draft desk).2.2 = .ok contract ∧
      (session.step index (.draft signature)).1.contracts[handle]? = some contract := by
  cases hi : session.desk? index with
  | none =>
    have hk : session.checkers[index]? = none := Option.map_eq_none_iff.1 hi
    simp only [step, hk] at h
    cases h
  | some desk =>
    obtain ⟨checker, hk, rfl⟩ := desk?_eq_some_iff.1 hi
    simp only [step, hk, act, draft] at h ⊢
    rcases hd : signature.draft ⟨session.catalog, checker, [], session.moment⟩ with
      ⟨after, notices, f | contract⟩
    · simp only [hd] at h
      cases h
    · simp only [hd] at h ⊢
      obtain ⟨rfl, -⟩ := Reply.drafted.inj h
      exact ⟨_, contract, rfl, hd ▸ rfl, List.getElem?_concat_length⟩

/-- A drafted contract answers for its callable as it was drafted, however the session goes on. -/
theorem serves_run {signature : Signature} {entity : Text}
    (h : (session.step index (.draft signature)).2 = .drafted handle entity)
    (later : List (Nat × Action)) :
    ∃ desk contract, session.desk? index = some desk ∧
      contract.DraftedFrom signature index desk ∧ contract.Transparent ∧
      ((session.step index (.draft signature)).1.run later).1.Serves index handle contract := by
  obtain ⟨desk, contract, hi, hd, hc⟩ := exists_of_step_draft h
  refine ⟨desk, contract, hi, Signature.draftedFrom_of_draft hd index, contract.transparent, ?_⟩
  obtain ⟨last, hl⟩ := exists_desk?_run hi ((index, .draft signature) :: later)
  obtain ⟨hn, rfl⟩ := List.getElem?_eq_some_iff.1 hc
  exact serves_of_getElem? hl
    (List.prefix_iff_getElem?.1 (contracts_prefix_run _ later) handle hn)

/-- The contract of `f(n)` with `n (int)` and `return (int)` still asks for integers when `int` has
come to be the name of a string type. -/
theorem serves_run_of_renamed :
    let doc := "Sum.\n\nn (int): a\nreturn (int): b".toList
    let signature : Signature := ⟨"f".toList, some doc, [⟨"n".toList, none⟩]⟩
    let session := start .withBuiltins [{}] true
    (session.step 0 (.draft signature)).2 = .drafted 0 "f".toList ∧
      ∃ desk contract, session.desk? 0 = some desk ∧
        contract.DraftedFrom signature 0 desk ∧ contract.Transparent ∧
        ((session.step 0 (.draft signature)).1.run
          [(0, .register "int".toList (.kind .str)), (0, .startRun)]).1.Serves 0 0 contract := by
  intro doc signature session
  have h : (session.step 0 (.draft signature)).2 = .drafted 0 "f".toList := by
    have hn : Outline.read "int".toList = .name "int".toList := Outline.read_of_form (.name _) rfl
    have hp : DocComment.declared? doc "n".toList = some "int".toList := by rfl
    have hr : DocComment.returned? doc = some "int".toList := by rfl
    let desk : Desk := ⟨.withBuiltins, { policy := {} }, [], 0⟩
    let pattern := Pattern.named "int".toList (.single (.kind .int))
    have hc : desk.compile "int".toList =
        ({ desk with checker := desk.checker.keep "int".toList desk.stamp pattern [] },
          .ok ⟨0, pattern⟩) := by
      simp only [Desk.compile, Desk.deliver, Scope.compileAt, hn]
      rfl
    change (session.draft 0 desk signature).2 = _
    simp only [draft, Signature.draft, signature, Signature.draftDocumented, Signature.draftSlots,
      hp, hc, Signature.draftReturned, hr]
    rfl
  exact ⟨h, serves_run h _⟩

end Session

end DocTypes
