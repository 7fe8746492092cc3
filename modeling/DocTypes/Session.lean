import DocTypes.Contract

set_option autoImplicit false

/-!
# Sessions

Several checkers over one catalog, the patterns and contracts made so far, and the notices that
nobody has read yet.
-/

namespace DocTypes

/-- A pattern at hand: what was compiled, and by which checker. -/
structure Handle where
  checker : Nat
  compiled : Compiled

structure Session where
  catalog : Catalog
  checkers : List Checker
  handles : List Handle := []
  contracts : List Contract := []
  /-- Whether notices are kept for reading. -/
  collects : Bool := true
  pending : List Notice := []
  /-- The names that resolvers noted during the last action. -/
  journal : List Text := []
  /-- How many questions resolvers have been asked. -/
  moment : Nat := 0

inductive Action where
  | compile (text : Text)
  | check (handle : Nat) (declared? : Option Text) (value : Value) (slot entity : Text)
  | checkText (text : Text) (value : Value) (slot entity : Text)
  | register (name : Text) (type : TypeRef)
  | registerClass (c : Class)
  | install (resolver? : Option Resolver)
  | startRun
  | contains (name : Text)
  | draft (signature : Signature)
  | checkCall (contract : Nat) (arguments : List Value) (keywords : Keywords)
  | checkReturn (contract : Nat) (value : Value)
  | call (contract : Nat) (f : List Value → Keywords → Value) (arguments : List Value)
    (keywords : Keywords)

inductive Reply where
  | compiled (handle : Nat) (pattern : Pattern) (sameAs? : Option Nat)
  | verdict (verdict : Verdict)
  | fault (f : Fault)
  | flag (b : Bool)
  | count (n : Nat)
  | drafted (contract : Nat) (entity : Text)
  | value (v : Value)
  | done
  /-- The action is on a checker, a pattern or a contract that does not exist. -/
  | absent

namespace Session

def start (catalog : Catalog) (policies : List Policy) (collects : Bool) : Session where
  catalog := catalog
  checkers := policies.map fun policy => { policy := policy }
  collects := collects

def report (session : Session) (notices : List Notice) : Session :=
  if session.collects then { session with pending := session.pending ++ notices } else session

def tell (session : Session) (notice : Notice) : Session := session.report [notice]

def drain (session : Session) : Session := { session with pending := [] }

/-- The session after one of its checkers has worked at a desk. -/
def afterDesk (session : Session) (index : Nat) (desk : Desk) : Session :=
  { session with
    catalog := desk.catalog
    checkers := session.checkers.set index desk.checker
    journal := desk.journal
    moment := desk.moment }

/-- The first handle of the very same build. -/
def earlier? (session : Session) (index : Nat) (compiled : Compiled) : Option Nat :=
  session.handles.findIdx? fun handle =>
    handle.checker == index && handle.compiled.build == compiled.build

def compile (session : Session) (index : Nat) (desk : Desk) (text : Text) : Session × Reply :=
  match desk.compile text with
  | (after, .error f) => (session.afterDesk index after, .fault f)
  | (after, .ok compiled) =>
    let session := session.afterDesk index after
    ({ session with handles := session.handles ++ [⟨index, compiled⟩] },
      .compiled session.handles.length compiled.pattern (session.earlier? index compiled))

def draft (session : Session) (index : Nat) (desk : Desk) (signature : Signature) :
    Session × Reply :=
  match signature.draft desk with
  | (after, notices, .error f) => ((session.afterDesk index after).report notices, .fault f)
  | (after, notices, .ok contract) =>
    let session := (session.afterDesk index after).report notices
    ({ session with contracts := session.contracts ++ [contract] },
      .drafted session.contracts.length contract.entity)

/-- What an action on the catalog, or with the checker of that index, does and answers. -/
def act (session : Session) (index : Nat) (desk : Desk) : Action → Session × Reply
  | .compile text => session.compile index desk text
  | .check handle declared? value slot entity =>
    match session.handles[handle]? with
    | some found =>
      let pattern := found.compiled.pattern
      let verdict :=
        desk.checker.policy.judge (declared?.getD pattern.text) pattern value slot entity
      (session, .verdict verdict)
    | none => (session, .absent)
  | .checkText text value slot entity =>
    match desk.check text value slot entity with
    | (after, .error f) => (session.afterDesk index after, .fault f)
    | (after, .ok verdict) => (session.afterDesk index after, .verdict verdict)
  | .register name type =>
    let (catalog, isNew) := session.catalog.put name type
    ({ session with catalog := catalog }, .flag isNew)
  | .registerClass c =>
    let (catalog, count) := session.catalog.putClass c
    ({ session with catalog := catalog }, .count count)
  | .install resolver? =>
    (session.afterDesk index { desk with checker := desk.checker.install resolver? }, .done)
  | .startRun =>
    (session.afterDesk index { desk with checker := desk.checker.startRun }, .done)
  | .contains name => (session, .flag (session.catalog.contains name))
  | .draft signature => session.draft index desk signature
  | .checkCall contract arguments keywords =>
    match session.contracts[contract]? with
    | some found =>
      (session.report (found.callNotices arguments keywords),
        .count (found.callMismatches arguments keywords))
    | none => (session, .absent)
  | .checkReturn contract value =>
    match session.contracts[contract]? with
    | some found =>
      (session.report (found.returnNotices value), .flag (found.acceptsReturned value))
    | none => (session, .absent)
  | .call contract f arguments keywords =>
    match session.contracts[contract]? with
    | some found =>
      let act (arguments : List Value) (keywords : Keywords) : StateM Session Value :=
        pure (f arguments keywords)
      let (result, after) :=
        (found.call (fun notice => modify (tell · notice)) act arguments keywords).run session
      (after, .value result)
    | none => (session, .absent)

/-- One action with the checker of that index. -/
def step (session : Session) (index : Nat) (action : Action) : Session × Reply :=
  let session := { session with journal := [] }
  match session.checkers[index]? with
  | some checker => session.act index ⟨session.catalog, checker, [], session.moment⟩ action
  | none => (session, .absent)

/-- Actions one after the other, each with the index of its checker, and what they answer. -/
def run (session : Session) : List (Nat × Action) → Session × List Reply
  | [] => (session, [])
  | (index, action) :: more =>
    let (after, reply) := session.step index action
    let (last, replies) := after.run more
    (last, reply :: replies)

/-- The names reported by a checker in its present run. -/
def reportedNames (session : Session) (index : Nat) : List Text :=
  match session.checkers[index]? with
  | some checker => checker.reportedNames
  | none => []

@[simp]
theorem catalog_report (session : Session) (notices : List Notice) :
    (session.report notices).catalog = session.catalog := by
  unfold report
  split <;> rfl

@[simp]
theorem checkers_report (session : Session) (notices : List Notice) :
    (session.report notices).checkers = session.checkers := by
  unfold report
  split <;> rfl

@[simp]
theorem contracts_report (session : Session) (notices : List Notice) :
    (session.report notices).contracts = session.contracts := by
  unfold report
  split <;> rfl

theorem pending_report (session : Session) (notices : List Notice) :
    (session.report notices).pending =
      if session.collects then session.pending ++ notices else session.pending := by
  unfold report
  split <;> rfl

theorem report_nil (session : Session) : session.report [] = session := by
  unfold report
  rw [List.append_nil]
  split <;> rfl

theorem report_report (session : Session) (first later : List Notice) :
    (session.report first).report later = session.report (first ++ later) := by
  cases hc : session.collects <;> simp [report, hc]

theorem foldl_tell (session : Session) (notices : List Notice) :
    notices.foldl tell session = session.report notices := by
  induction notices generalizing session with
  | nil => exact session.report_nil.symm
  | cons notice more ih =>
    rw [List.foldl_cons, ih, tell, report_report]
    rfl

theorem act_call {session : Session} {handle : Nat} {contract : Contract}
    (h : session.contracts[handle]? = some contract) (index : Nat) (desk : Desk)
    (f : List Value → Keywords → Value) (arguments : List Value) (keywords : Keywords) :
    session.act index desk (.call handle f arguments keywords) =
      (session.report (contract.callNotices arguments keywords ++
        contract.returnNotices (f arguments keywords)), .value (f arguments keywords)) := by
  simp only [act, h, Contract.run_call, foldl_tell]
  change (Session.report _ _, _) = _
  rw [report_report]

end Session

end DocTypes
