import DocTypes.Proofs.Session.Contracts
import DocTypes.Proofs.Session.Faithful

set_option autoImplicit false

/-!
# What drafting reports

A contract is drafted parameter by parameter. Each adds what there is to tell about it: that it has
no type, or that its type rejects its default. The first type at fault ends the drafting, and what
was told about the parameters before it stays told.
-/

namespace DocTypes

/-- The contract that is checked, for an action that checks by one. -/
def Action.contract? : Action → Option Nat
  | checkCall handle _ _ | checkReturn handle _ | call handle _ _ _ => some handle
  | _ => none

namespace Contract

/-- Nothing is ever told under this contract. -/
structure Silent (contract : Contract) : Prop where
  callNotices (arguments : List Value) (keywords : Keywords) :
    contract.callNotices arguments keywords = []
  returnNotices (result : Value) : contract.returnNotices result = []

theorem Silent.pending_step {contract : Contract} (h : contract.Silent) {session : Session}
    {handle : Nat} (hc : session.contracts[handle]? = some contract) (index : Nat)
    {action : Action} (ha : action.contract? = some handle) :
    (session.step index action).1.pending = session.pending := by
  have hk : ({ session with journal := [] } : Session).contracts[handle]? = some contract := hc
  simp only [Session.step]
  split
  case h_2 => rfl
  case h_1 =>
    cases action with
    | checkCall | checkReturn =>
      cases ha
      simp only [Session.act, hk, h.callNotices, h.returnNotices, Session.report_nil]
    | call =>
      cases ha
      rw [Session.act_call hk, h.callNotices, h.returnNotices]
      simp only [List.append_nil, Session.report_nil]
    | _ => cases ha

end Contract

namespace Signature

theorem silent_undocumented (signature : Signature) (policy : Policy) :
    (signature.undocumented policy).Silent where
  callNotices arguments keywords := by
    rw [Contract.callNotices_eq]
    refine List.filterMap_eq_nil_iff.2 fun entry he => ?_
    obtain ⟨parameter, -, hs⟩ := List.mem_map.1 (List.fst_mem_of_mem_zipIdx he)
    rw [Contract.rejection?, ← hs]
    rfl
  returnNotices _ := rfl

/-- The declared types of the parameters, in order, and then the type of what is returned. -/
def declarations (signature : Signature) (doc : Text) : List (Option Text) :=
  signature.parameters.map (fun parameter => DocComment.declared? doc parameter.name) ++
    [DocComment.returned? doc]

def typeAt? (signature : Signature) (doc : Text) (place : Nat) : Option Text :=
  (signature.declarations doc)[place]?.join

/-- The desk when the types before a place are compiled. -/
def deskAt (signature : Signature) (doc : Text) (desk : Desk) : Nat → Desk
  | 0 => desk
  | place + 1 =>
    match signature.typeAt? doc place with
    | some text => ((signature.deskAt doc desk place).compile text).1
    | none => signature.deskAt doc desk place

/-- What there is to tell about the parameter at a place. -/
def noticeAt? (signature : Signature) (doc : Text) (desk : Desk) (place : Nat) : Option Notice :=
  signature.parameters[place]?.bind fun parameter =>
    match DocComment.declared? doc parameter.name with
    | none =>
      if desk.checker.policy.complains ∧ ¬(place = 0 ∧ parameter.name = receiver) then
        some (.missingType signature.entity parameter.name)
      else none
    | some text =>
      parameter.default?.bind fun value =>
        ((signature.deskAt doc desk place).compile text).2.toOption.bind fun compiled =>
          Declared.rejection? ⟨text, compiled.pattern⟩ desk.checker.policy value parameter.name
            signature.entity

/-- What there is to tell about the parameters before a place. -/
def noticesBefore (signature : Signature) (doc : Text) (desk : Desk) (count : Nat) : List Notice :=
  (List.range count).filterMap (signature.noticeAt? doc desk)

/-- No type before this place has a fault. -/
def Faultless (signature : Signature) (doc : Text) (count : Nat) : Prop :=
  ∀ place < count, ∀ text, signature.typeAt? doc place = some text → ∀ f : Fault, ¬f.In text

/-- The type at this place has the fault, and none before it has any. -/
structure FirstFault (signature : Signature) (doc : Text) (place : Nat) (f : Fault) : Prop where
  here : ∃ text, signature.typeAt? doc place = some text ∧ f.In text
  before : signature.Faultless doc place

/-- Some declared type has a fault. -/
def Faulty (signature : Signature) (doc : Text) : Prop :=
  ∃ place text f, signature.typeAt? doc place = some text ∧ Fault.In f text

variable {signature : Signature} {doc : Text} {desk : Desk} {place count : Nat}
  {parameter : Parameter} {f : Fault}

theorem Faultless.mono (h : signature.Faultless doc count) (hp : place ≤ count) :
    signature.Faultless doc place :=
  fun earlier hl => h earlier (Nat.lt_of_lt_of_le hl hp)

theorem typeAt?_of_parameter (h : signature.parameters[place]? = some parameter) :
    signature.typeAt? doc place = DocComment.declared? doc parameter.name := by
  obtain ⟨hl, -⟩ := List.getElem?_eq_some_iff.1 h
  rw [typeAt?, declarations, List.getElem?_append_left (by simpa using hl), List.getElem?_map, h]
  rfl

theorem typeAt?_returned (signature : Signature) (doc : Text) :
    signature.typeAt? doc signature.parameters.length = DocComment.returned? doc := by
  rw [typeAt?, declarations, List.getElem?_append_right (by simp)]
  simp

theorem le_of_typeAt? {text : Text} (h : signature.typeAt? doc place = some text) :
    place ≤ signature.parameters.length := by
  obtain ⟨hl, -⟩ := List.getElem?_eq_some_iff.1 (Option.join_eq_some_iff.1 h)
  rw [declarations, List.length_append, List.length_map] at hl
  exact Nat.le_of_lt_succ hl

theorem Faulty.exists_firstFault (h : signature.Faulty doc) :
    ∃ place f, signature.FirstFault doc place f := by
  obtain ⟨place, text, f, ht, hf⟩ := h
  induction place using Nat.strong_induction_on generalizing text f with
  | _ place ih =>
    by_cases hb : signature.Faultless doc place
    · exact ⟨place, f, ⟨text, ht, hf⟩, hb⟩
    · simp only [Faultless, not_forall, not_not] at hb
      obtain ⟨earlier, hl, other, ho, g, hg⟩ := hb
      exact ih earlier hl other g ho hg

/-- What each call keeps still holds when the types before a place are compiled. -/
theorem deskAt_of_kept {motive : Desk → Prop}
    (hk : ∀ desk text, motive desk → motive (desk.compile text).1) (h : motive desk)
    (signature : Signature) (doc : Text) (place : Nat) :
    motive (signature.deskAt doc desk place) := by
  induction place with
  | zero => exact h
  | succ place ih =>
    rw [deskAt]
    split
    case h_1 => exact hk _ _ ih
    case h_2 => exact ih

theorem policy_deskAt (signature : Signature) (doc : Text) (desk : Desk) (place : Nat) :
    (signature.deskAt doc desk place).checker.policy = desk.checker.policy :=
  deskAt_of_kept (motive := fun later => later.checker.policy = desk.checker.policy)
    (fun later text hp => (later.policy_compile text).trans hp) rfl signature doc place

theorem faithful_deskAt (h : desk.checker.Faithful) (signature : Signature) (doc : Text)
    (place : Nat) : (signature.deskAt doc desk place).checker.Faithful :=
  deskAt_of_kept (motive := fun later => later.checker.Faithful)
    (fun _ text hd => (Desk.faithful_compile hd text).1) h signature doc place

/-- What is left to do when the parameters before a place are done. -/
def draftRest (signature : Signature) (doc : Text) (desk : Desk) (place : Nat) :
    Desk × List Notice × Except Fault (List Slot) :=
  draftSlots signature.entity doc (place == 0) (signature.parameters.drop place)
    (signature.deskAt doc desk place)

theorem drop_parameters (h : signature.parameters[place]? = some parameter) :
    signature.parameters.drop place = parameter :: signature.parameters.drop (place + 1) := by
  obtain ⟨hl, he⟩ := List.getElem?_eq_some_iff.1 h
  rw [List.drop_eq_getElem_cons hl, he]

theorem noticesBefore_succ (signature : Signature) (doc : Text) (desk : Desk) (count : Nat) :
    signature.noticesBefore doc desk (count + 1) =
      signature.noticesBefore doc desk count ++ (signature.noticeAt? doc desk count).toList := by
  rw [noticesBefore, List.range_succ, List.filterMap_append, List.filterMap_cons]
  cases signature.noticeAt? doc desk count <;> rfl

theorem undeclaredNotices_eq (h : signature.parameters[place]? = some parameter)
    (hd : DocComment.declared? doc parameter.name = none) :
    undeclaredNotices (signature.deskAt doc desk place).checker.policy signature.entity
      (place == 0) parameter.name = (signature.noticeAt? doc desk place).toList := by
  rw [undeclaredNotices, policy_deskAt, noticeAt?, h, Option.bind_some, hd]
  simp only [Bool.and_eq_true, Bool.not_eq_true', Bool.and_eq_false_iff, beq_eq_false_iff_ne, ne_eq,
    not_and_or]
  split <;> rfl

theorem defaultNotices_eq {text : Text} {compiled : Compiled}
    (h : signature.parameters[place]? = some parameter)
    (hd : DocComment.declared? doc parameter.name = some text)
    (hc : ((signature.deskAt doc desk place).compile text).2 = .ok compiled) :
    defaultNotices (signature.deskAt doc desk place).checker.policy signature.entity parameter
      ⟨text, compiled.pattern⟩ = (signature.noticeAt? doc desk place).toList := by
  rw [defaultNotices, policy_deskAt, noticeAt?, h, Option.bind_some, hd]
  simp only [hc]
  cases parameter.default? with
  | none => rfl
  | some value => exact Declared.notices_eq ..

/-- One parameter whose type has no fault. -/
theorem draftRest_step (hf : desk.checker.Faithful) (hl : place < signature.parameters.length)
    (hn : ∀ text, signature.typeAt? doc place = some text → ∀ f : Fault, ¬f.In text) :
    ∃ slot, signature.draftRest doc desk place =
      ((signature.draftRest doc desk (place + 1)).1,
        (signature.noticeAt? doc desk place).toList ++
          (signature.draftRest doc desk (place + 1)).2.1,
        (signature.draftRest doc desk (place + 1)).2.2.map (slot :: ·)) := by
  obtain ⟨parameter, hp⟩ : ∃ parameter, signature.parameters[place]? = some parameter :=
    ⟨_, List.getElem?_eq_getElem hl⟩
  have ht : signature.typeAt? doc place = DocComment.declared? doc parameter.name :=
    typeAt?_of_parameter hp
  rw [draftRest, draftRest, drop_parameters hp, draftSlots, deskAt, ht]
  cases hd : DocComment.declared? doc parameter.name with
  | none =>
    refine ⟨⟨parameter.name, none⟩, ?_⟩
    simp only [undeclaredNotices_eq hp hd]
    rfl
  | some text =>
    rcases hc : (signature.deskAt doc desk place).compile text with ⟨after, f | compiled⟩
    · have hi : f.In text := (Desk.compile_eq_error_iff (faithful_deskAt hf signature doc place)).1
        (congrArg Prod.snd hc)
      exact absurd hi (hn text (ht.trans hd) f)
    · refine ⟨⟨parameter.name, some ⟨text, compiled.pattern⟩⟩, ?_⟩
      simp only [hc, defaultNotices_eq hp hd (congrArg Prod.snd hc)]
      rfl

/-- When the first types have no fault, the notices for their parameters come first, and then the
rest is drafted at the desk that these types have left. -/
theorem draftSlots_of_faultless (hf : desk.checker.Faithful)
    (hl : count ≤ signature.parameters.length) (hn : signature.Faultless doc count) :
    ∃ slots, draftSlots signature.entity doc true signature.parameters desk =
      ((signature.draftRest doc desk count).1,
        signature.noticesBefore doc desk count ++ (signature.draftRest doc desk count).2.1,
        (signature.draftRest doc desk count).2.2.map (slots ++ ·)) := by
  -- By the number of parameters that are done, since the desk is told from the front.
  induction count with
  | zero =>
    refine ⟨[], ?_⟩
    change signature.draftRest doc desk 0 = _
    rcases signature.draftRest doc desk 0 with ⟨last, notices, f | slots⟩ <;> rfl
  | succ count ih =>
    obtain ⟨slots, hs⟩ := ih (Nat.le_of_succ_le hl) (hn.mono (Nat.le_succ count))
    obtain ⟨slot, hr⟩ := draftRest_step hf hl (hn count (Nat.lt_succ_self count))
    refine ⟨slots ++ [slot], ?_⟩
    rw [hs, hr, noticesBefore_succ, List.append_assoc, Outline.map_map]
    simp only [Function.comp_def, List.append_assoc, List.singleton_append]

theorem draftReturned_eq_error_iff (hf : desk.checker.Faithful) :
    (draftReturned doc desk).2 = .error f ↔
      ∃ text, DocComment.returned? doc = some text ∧ f.In text := by
  rw [draftReturned]
  cases ht : DocComment.returned? doc with
  | none =>
    refine iff_of_false (fun h => by cases h) ?_
    rintro ⟨text, h, -⟩
    cases h
  | some text =>
    simp only [Option.some.injEq, exists_eq_left', ← Desk.compile_eq_error_iff hf]
    rcases desk.compile text with ⟨after, g | compiled⟩
    · simp only [Except.error.injEq]
    · exact iff_of_false (fun h => by cases h) (fun h => by cases h)

/-- When no parameter has a type at fault, all notices are told and the rest is up to the type of
what is returned. -/
theorem draftDocumented_of_faultless (hf : desk.checker.Faithful)
    (hn : signature.Faultless doc signature.parameters.length) :
    ∃ slots, (signature.draftDocumented doc desk).2 =
      (signature.noticesBefore doc desk signature.parameters.length,
        (draftReturned doc (signature.deskAt doc desk signature.parameters.length)).2.map
          (⟨desk.checker.policy, signature.entity, slots, ·⟩)) := by
  obtain ⟨slots, hs⟩ := draftSlots_of_faultless hf (Nat.le_refl _) hn
  refine ⟨slots ++ [], ?_⟩
  rw [draftDocumented, hs]
  simp only [draftRest, List.drop_length, draftSlots, List.append_nil, Except.map]
  rcases draftReturned doc (signature.deskAt doc desk signature.parameters.length) with
    ⟨last, f | returned?⟩ <;> rfl

/-- A type at fault ends the drafting, and the notices for the parameters before it are told. -/
theorem draftDocumented_of_firstFault (hf : desk.checker.Faithful)
    (h : signature.FirstFault doc place f) :
    (signature.draftDocumented doc desk).2 =
      (signature.noticesBefore doc desk place, .error f) := by
  obtain ⟨⟨text, ht, hi⟩, hn⟩ := h
  have hd := faithful_deskAt hf signature doc place
  rcases Nat.lt_or_eq_of_le (le_of_typeAt? ht) with hl | rfl
  · -- The fault is in the type of a parameter.
    have hp : signature.parameters[place]? = some signature.parameters[place] :=
      List.getElem?_eq_getElem hl
    obtain ⟨slots, hs⟩ := draftSlots_of_faultless hf (Nat.le_of_lt hl) hn
    have hc := (Desk.compile_eq_error_iff hd).2 hi
    rcases hk : (signature.deskAt doc desk place).compile text with ⟨after, result⟩
    rw [hk] at hc
    subst hc
    rw [typeAt?_of_parameter hp] at ht
    rw [draftDocumented, hs]
    simp only [draftRest, drop_parameters hp, draftSlots, ht, hk, List.append_nil, Except.map]
  · -- The fault is in the type of what is returned.
    obtain ⟨slots, hs⟩ := draftDocumented_of_faultless hf hn
    rw [typeAt?_returned] at ht
    rw [hs, (draftReturned_eq_error_iff hd).2 ⟨text, ht, hi⟩]
    rfl

/-- If no type has a fault, there is a contract, and the notices for all parameters are told. -/
theorem draftDocumented_of_not_faulty (hf : desk.checker.Faithful) (h : ¬signature.Faulty doc) :
    ∃ contract, (signature.draftDocumented doc desk).2 =
      (signature.noticesBefore doc desk signature.parameters.length, .ok contract) := by
  obtain ⟨slots, hs⟩ := draftDocumented_of_faultless hf
    fun place _ text ht f hi => h ⟨place, text, f, ht, hi⟩
  rw [hs]
  cases hr : (draftReturned doc (signature.deskAt doc desk signature.parameters.length)).2 with
  | ok returned? => exact ⟨_, rfl⟩
  | error f =>
    obtain ⟨text, ht, hi⟩ := (draftReturned_eq_error_iff (faithful_deskAt hf signature doc _)).1 hr
    exact absurd ⟨_, text, f, (typeAt?_returned signature doc).trans ht, hi⟩ h

end Signature

/-- How drafting is answered if the next contract gets that handle. -/
def Reply.ofDraft (handle : Nat) : Except Fault Contract → Reply :=
  .ofResult fun contract => .drafted handle contract.entity

namespace Session

/-- Drafting at a desk tells these notices and ends in this result. In the session the notices are
added to those that are kept, and a contract to those that are there. -/
structure Drafts (session : Session) (index : Nat) (desk : Desk) (signature : Signature)
    (notices : List Notice) (result : Except Fault Contract) : Prop where
  draft : (signature.draft desk).2 = (notices, result)
  pending : (session.step index (.draft signature)).1.pending =
    if session.collects then session.pending ++ notices else session.pending
  contracts : (session.step index (.draft signature)).1.contracts =
    session.contracts ++ result.toOption.toList
  reply : (session.step index (.draft signature)).2 = .ofDraft session.contracts.length result

variable {session : Session} {index : Nat} {desk : Desk} {signature : Signature}

theorem getElem?_contracts_run {handle : Nat} {contract : Contract}
    (h : session.contracts[handle]? = some contract) (run : List (Nat × Action)) :
    (session.run run).1.contracts[handle]? = some contract := by
  obtain ⟨hl, rfl⟩ := List.getElem?_eq_some_iff.1 h
  exact List.prefix_iff_getElem?.1 (contracts_prefix_run session run) handle hl

theorem drafts_of_desk? (h : session.desk? index = some desk) {notices : List Notice}
    {result : Except Fault Contract} (hd : (signature.draft desk).2 = (notices, result)) :
    session.Drafts index desk signature notices result := by
  obtain ⟨checker, hk, rfl⟩ := desk?_eq_some_iff.1 h
  rcases hs : signature.draft ⟨session.catalog, checker, [], session.moment⟩ with ⟨after, outcome⟩
  obtain rfl : outcome = (notices, result) := (congrArg Prod.snd hs).symm.trans hd
  let told := (({ session with journal := [] } : Session).afterDesk index after).report notices
  have hp : told.pending =
      if session.collects then session.pending ++ notices else session.pending :=
    pending_report _ notices
  have hc : told.contracts = session.contracts := contracts_report _ notices
  cases result with
  | error f =>
    have ha : session.step index (.draft signature) = (told, .fault f) := by
      simp only [step, hk, act, draft, hs, told]
    refine ⟨hd, by rw [ha, hp], ?_, by rw [ha]; rfl⟩
    rw [ha, hc]
    exact (List.append_nil _).symm
  | ok contract =>
    have ha : session.step index (.draft signature) =
        ({ told with contracts := told.contracts ++ [contract] },
          .drafted told.contracts.length contract.entity) := by
      simp only [step, hk, act, draft, hs, told]
    refine ⟨hd, by rw [ha]; exact hp, ?_, by rw [ha, hc]; rfl⟩
    rw [ha, hc]
    rfl

/-- In any session: without a doc comment there is a contract, all that may be told is that the doc
comment is missing, and nothing is told under the contract, however the session goes on. With one,
drafting ends in the first fault of a declared type, and what there is to tell about the parameters
before it is told. If no declared type has a fault there is a contract, and what there is to tell
about any parameter is told. -/
theorem draft_reports {catalog : Catalog} {policies : List Policy} {collects : Bool}
    {run : List (Nat × Action)}
    (h : ((start catalog policies collects).run run).1.desk? index = some desk)
    (signature : Signature) :
    let session := ((start catalog policies collects).run run).1
    (signature.doc? = none → ∃ contract,
      session.Drafts index desk signature
        (if desk.checker.policy.complains then [.missingDoc signature.entity] else [])
        (.ok contract) ∧
      contract.Silent ∧
      ∀ (later : List (Nat × Action)) (actor : Nat) (action : Action),
        action.contract? = some session.contracts.length →
          let last := ((session.step index (.draft signature)).1.run later).1
          (last.step actor action).1.pending = last.pending) ∧
    ∀ doc, signature.doc? = some doc →
      (signature.Faulty doc → ∃ place f, signature.FirstFault doc place f) ∧
      (∀ place f, signature.FirstFault doc place f →
        session.Drafts index desk signature (signature.noticesBefore doc desk place) (.error f)) ∧
      (¬signature.Faulty doc → ∃ contract, session.Drafts index desk signature
        (signature.noticesBefore doc desk signature.parameters.length) (.ok contract)) := by
  intro session
  have hf := faithful_desk? h
  refine ⟨fun hd => ?_, fun doc hd =>
    ⟨Signature.Faulty.exists_firstFault, fun place f hp => ?_, fun hb => ?_⟩⟩
  · let contract := signature.undocumented desk.checker.policy
    have hr : (signature.draft desk).2 =
        (if desk.checker.policy.complains then [.missingDoc signature.entity] else [],
          .ok contract) := by
      simp only [Signature.draft, hd, contract]
    have hs := drafts_of_desk? h hr
    have hq := signature.silent_undocumented desk.checker.policy
    refine ⟨contract, hs, hq, fun later actor action ha => ?_⟩
    have hk : (session.step index (.draft signature)).1.contracts[session.contracts.length]? =
        some contract := by
      rw [hs.contracts]
      exact List.getElem?_concat_length
    exact hq.pending_step (getElem?_contracts_run hk later) actor ha
  · refine drafts_of_desk? h ?_
    rw [Signature.draft, hd]
    exact Signature.draftDocumented_of_firstFault hf hp
  · obtain ⟨contract, hc⟩ := Signature.draftDocumented_of_not_faulty hf hb
    refine ⟨contract, drafts_of_desk? h ?_⟩
    rw [Signature.draft, hd]
    exact hc

/-- Of five parameters the fourth has a type at fault. The first is the receiver, the second has no
type, the third has a default of another type, and nothing is told about the last. -/
theorem draft_reports_of_malformed :
    let doc := "F.\n\nb (int): x\nc ({a: b: c}): y".toList
    let signature : Signature := ⟨"f".toList, some doc,
      [⟨"self".toList, none⟩, ⟨"a".toList, none⟩, ⟨"b".toList, some (.str "x".toList)⟩,
        ⟨"c".toList, none⟩, ⟨"d".toList, none⟩]⟩
    let session := start .withBuiltins [{ complains := true }] true
    let desk : Desk := ⟨.withBuiltins, { policy := { complains := true } }, [], 0⟩
    let f := Fault.malformed "{a: b: c}".toList "a: b: c".toList
    session.desk? 0 = some desk ∧ signature.FirstFault doc 3 f ∧
      session.Drafts 0 desk signature
        [.missingType "f".toList "a".toList,
          .mismatch (.ofValue 2 "f".toList "b".toList "int".toList (.str "x".toList))]
        (.error f) := by
  intro doc signature session desk f
  have hd : ((start .withBuiltins [{ complains := true }] true).run []).1.desk? 0 = some desk := rfl
  have hi : Outline.read "int".toList = .name "int".toList := Outline.read_of_form (.name _) rfl
  have hm : Outline.read "{a: b: c}".toList = .fault f := Outline.read_of_form (.fault f) rfl
  have hf : signature.FirstFault doc 3 f := by
    refine ⟨⟨"{a: b: c}".toList, by rfl, Fault.in_iff.2 (by rw [hm]; rfl)⟩, ?_⟩
    intro place hl text ht g hg
    have hs : signature.typeAt? doc 0 = none ∧ signature.typeAt? doc 1 = none ∧
        signature.typeAt? doc 2 = some "int".toList := ⟨by rfl, by rfl, by rfl⟩
    match place, hl, ht with
    | 0, _, ht => cases hs.1.symm.trans ht
    | 1, _, ht => cases hs.2.1.symm.trans ht
    | 2, _, ht =>
      obtain rfl := Option.some.inj (hs.2.2.symm.trans ht)
      have he := Fault.in_iff.1 hg
      rw [hi] at he
      cases he
  have hc : ((signature.deskAt doc desk 2).compile "int".toList).2 =
      .ok ⟨0, .named "int".toList (.single (.kind .int))⟩ := by
    change (desk.compile "int".toList).2 = _
    simp only [Desk.compile, Desk.deliver, Scope.compileAt, hi]
    rfl
  have hn : signature.noticeAt? doc desk 2 =
      some (.mismatch (.ofValue 2 "f".toList "b".toList "int".toList (.str "x".toList))) := by
    have hb : DocComment.declared? doc "b".toList = some "int".toList := by rfl
    rw [Signature.noticeAt?]
    simp only [signature, List.getElem?_cons_succ, List.getElem?_cons_zero, Option.bind_some, hb]
    rw [hc]
    rfl
  have hl : signature.noticesBefore doc desk 3 = [.missingType "f".toList "a".toList,
      .mismatch (.ofValue 2 "f".toList "b".toList "int".toList (.str "x".toList))] := by
    rw [Signature.noticesBefore_succ, hn]
    rfl
  refine ⟨hd, hf, ?_⟩
  rw [← hl]
  exact ((draft_reports hd signature).2 doc rfl).2.1 3 f hf

end Session

end DocTypes
