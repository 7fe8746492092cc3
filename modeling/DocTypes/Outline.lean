import DocTypes.Outline.Form

set_option autoImplicit false

/-!
# Outlines

The outline of a type expression is its shape as the text alone gives it: names not yet bound, and
every fault in the place where it was found. What a name denotes never changes an outline.
-/

namespace DocTypes

inductive Outline where
  | blank
  | name (n : Text)
  | union (alternatives : List Outline)
  | list (element : Outline)
  | tuple (items : List Outline)
  | set (element : Outline)
  | map (key value : Outline)
  | record (fields : List (Text × Outline))
  | fault (f : Fault)

namespace Outline

/-- An outline is made from its parts. -/
@[elab_as_elim, induction_eliminator]
theorem induct {motive : Outline → Prop} (blank : motive .blank)
    (name : ∀ n, motive (.name n))
    (union : ∀ alternatives, (∀ outline ∈ alternatives, motive outline) →
      motive (.union alternatives))
    (list : ∀ element, motive element → motive (.list element))
    (tuple : ∀ items, (∀ outline ∈ items, motive outline) → motive (.tuple items))
    (set : ∀ element, motive element → motive (.set element))
    (map : ∀ key value, motive key → motive value → motive (.map key value))
    (record : ∀ fields, (∀ field ∈ fields, motive field.2) → motive (.record fields))
    (fault : ∀ f, motive (.fault f)) (outline : Outline) : motive outline :=
  @Outline.rec motive (fun outlines => ∀ outline ∈ outlines, motive outline)
    (fun fields => ∀ field ∈ fields, motive field.2) (fun field => motive field.2)
    blank name union list tuple set map record fault (List.forall_mem_nil _)
    (fun _ _ ho hm => List.forall_mem_cons.2 ⟨ho, hm⟩) (List.forall_mem_nil _)
    (fun _ _ hf hm => List.forall_mem_cons.2 ⟨hf, hm⟩) (fun _ _ ho => ho) outline

def ofForm (form : Form) (read : (part : Text) → part ∈ form.parts → Outline) : Outline :=
  match form, read with
  | .blank, _ => blank
  | .name n, _ => name n
  | .union alternatives, read => union (alternatives.attach.map fun part => read part.1 part.2)
  | .list element, read => list (read element (List.mem_singleton.2 rfl))
  | .tuple items, read => tuple (items.attach.map fun part => read part.1 part.2)
  | .set element, read => set (read element (List.mem_singleton.2 rfl))
  | .map key value, read =>
    map (read key (List.mem_cons_self ..))
      (read value (List.mem_cons_of_mem _ (List.mem_cons_self ..)))
  | .record fields, read =>
    record (fields.attach.map fun field =>
      (field.1.1, read field.1.2 (List.mem_map_of_mem field.2)))
  | .fault f, _ => fault f

/-- Reads an expression from its outermost construct inwards. -/
def read (text : Text) : Outline := ofForm (Form.ofText text) fun part _ => read part
termination_by text.length
decreasing_by exact Form.length_part_lt ‹_›

/-- The outline with the given outermost construct and the parts read by `read`. -/
def build (read : Text → Outline) : Form → Outline
  | .blank => blank
  | .name n => name n
  | .union alternatives => union (alternatives.map read)
  | .list element => list (read element)
  | .tuple items => tuple (items.map read)
  | .set element => set (read element)
  | .map key value => map (read key) (read value)
  | .record fields => record (fields.map fun field => (field.1, read field.2))
  | .fault f => fault f

theorem ofForm_eq_build (read : Text → Outline) (form : Form) :
    (ofForm form fun part _ => read part) = build read form := by
  cases form with
  | record fields =>
    let readField (field : Text × Text) := (field.1, read field.2)
    exact congrArg record (List.attach_map_val (f := readField))
  | _ => simp [ofForm, build]

theorem read_eq (text : Text) : read text = build read (Form.ofText text) := by
  rw [read, ofForm_eq_build]

mutual

/-- The names and faults of an outline, from left to right. -/
def leaves : Outline → List (Except Fault Text)
  | blank => []
  | name n => [.ok n]
  | union alternatives => leavesEach alternatives
  | list element => element.leaves
  | tuple items => leavesEach items
  | set element => element.leaves
  | map key value => key.leaves ++ value.leaves
  | record fields => leavesFields fields
  | fault f => [.error f]
termination_by structural outline => outline

def leavesEach : List Outline → List (Except Fault Text)
  | [] => []
  | outline :: more => outline.leaves ++ leavesEach more
termination_by structural outlines => outlines

def leavesFields : List (Text × Outline) → List (Except Fault Text)
  | [] => []
  | (_, outline) :: more => outline.leaves ++ leavesFields more
termination_by structural fields => fields

end

def fault? (outline : Outline) : Option Fault :=
  outline.leaves.findSome? fun leaf => match leaf with
    | .error f => some f
    | .ok _ => none

/-- The names that stand before the first fault. -/
def names (outline : Outline) : List Text :=
  (outline.leaves.takeWhile fun leaf => leaf.toBool).filterMap Except.toOption

theorem leavesEach_eq_flatMap (outlines : List Outline) :
    leavesEach outlines = outlines.flatMap leaves := by
  induction outlines with
  | nil => rfl
  | cons outline more ih => simp [leavesEach, ih]

theorem leavesFields_eq_flatMap (fields : List (Text × Outline)) :
    leavesFields fields = fields.flatMap fun field => field.2.leaves := by
  induction fields with
  | nil => rfl
  | cons field more ih => simp [leavesFields, ih]

end Outline

end DocTypes
