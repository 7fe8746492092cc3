import DocTypes.Text.Blank

set_option autoImplicit false

/-!
# Places and order in the UTF-8 form of a text

Places are counted in bytes of the UTF-8 form, and names are listed in the order of their UTF-8
forms, which is the order of their code points.
-/

namespace DocTypes.Text

def byteLength : Text → Nat
  | [] => 0
  | c :: rest => c.utf8Size + byteLength rest

/-- What follows the first `count` bytes, if these end where a character does. -/
def dropBytes? : Text → Nat → Option Text
  | text, 0 => some text
  | [], _ + 1 => none
  | c :: rest, count => if c.utf8Size ≤ count then dropBytes? rest (count - c.utf8Size) else none

def atMost (a b : Text) : Bool := decide (¬ b < a)

def insertSorted (name : Text) : List Text → List Text
  | [] => [name]
  | other :: more =>
    if atMost name other then name :: other :: more else other :: insertSorted name more

def sorted (names : List Text) : List Text := names.foldr insertSorted []

@[simp] theorem byteLength_nil : byteLength [] = 0 := rfl

@[simp] theorem byteLength_cons (c : Char) (rest : Text) :
    byteLength (c :: rest) = c.utf8Size + byteLength rest := rfl

@[simp] theorem byteLength_append (a b : Text) :
    byteLength (a ++ b) = byteLength a + byteLength b := by
  induction a with
  | nil => simp
  | cons c a ih => rw [List.cons_append, byteLength_cons, byteLength_cons, ih, Nat.add_assoc]

theorem dropBytes?_append (before after : Text) :
    dropBytes? (before ++ after) (byteLength before) = some after := by
  induction before with
  | nil => cases after <;> rfl
  | cons c rest ih =>
    have h := c.utf8Size_pos
    rw [List.cons_append, byteLength_cons]
    obtain ⟨n, hn⟩ : ∃ n, c.utf8Size + byteLength rest = n + 1 :=
      ⟨c.utf8Size + byteLength rest - 1, by omega⟩
    rw [hn, dropBytes?, ← hn, if_pos (Nat.le_add_right _ _), Nat.add_sub_cancel_left, ih]
    simp

theorem dropBytes?_eq_some {text after : Text} {count : Nat}
    (h : dropBytes? text count = some after) :
    ∃ before, text = before ++ after ∧ count = byteLength before := by
  fun_induction dropBytes? text count with
  | case1 text => exact ⟨[], by simpa using h, rfl⟩
  | case2 => simp at h
  | case3 c rest count _ hle ih =>
    obtain ⟨before, rfl, hb⟩ := ih h
    exact ⟨c :: before, rfl, by rw [byteLength_cons]; omega⟩
  | case4 => simp at h

theorem insertSorted_perm (name : Text) (names : List Text) :
    (insertSorted name names).Perm (name :: names) := by
  induction names with
  | nil => exact .refl _
  | cons other more ih =>
    rw [insertSorted]
    split
    · exact .refl _
    · exact (ih.cons other).trans (.swap name other more)

theorem sorted_perm (names : List Text) : (sorted names).Perm names := by
  induction names with
  | nil => exact .refl _
  | cons name more ih => exact (insertSorted_perm name _).trans (ih.cons name)

end DocTypes.Text
