import DocTypes.Text.Blank

set_option autoImplicit false

/-!
# Classes

A class has a dotted path and the classes it derives from. Its path alone says which class it is:
two classes with one path are the same class, whatever their bases.
-/

namespace DocTypes

structure Class where
  path : Text
  bases : List Class

namespace Class

/-- A class is made from its bases. -/
@[elab_as_elim, induction_eliminator]
theorem induct {motive : Class → Prop}
    (mk : ∀ path bases, (∀ base ∈ bases, motive base) → motive ⟨path, bases⟩) (c : Class) :
    motive c :=
  @Class.rec motive (fun bases => ∀ base ∈ bases, motive base) mk (List.forall_mem_nil _)
    (fun _ _ hb hm => List.forall_mem_cons.2 ⟨hb, hm⟩) c

instance : BEq Class := ⟨fun a b => a.path == b.path⟩

theorem beq_iff {a b : Class} : (a == b) = true ↔ a.path = b.path := beq_iff_eq (α := Text)

instance : EquivBEq Class where
  rfl := beq_iff.2 rfl
  symm h := beq_iff.2 (beq_iff.1 h).symm
  trans h k := beq_iff.2 ((beq_iff.1 h).trans (beq_iff.1 k))

/-- What follows each dot of a path, the longest first. -/
def afterDots : Text → List Text
  | [] => []
  | c :: rest => if c = '.' then rest :: afterDots rest else afterDots rest

/-- The path and every dotted suffix of it, the longest first. -/
def suffixes (path : Text) : List Text := path :: afterDots path

/-- The names a class may be called by. -/
def names (c : Class) : List Text := suffixes c.path

def bareName (c : Class) : Text := c.names.getLast (List.cons_ne_nil _ _)

mutual

/-- Whether `c` or a class it derives from, however remotely, is `other`. -/
def derivesFrom (c other : Class) : Bool :=
  match c with
  | ⟨path, bases⟩ => path == other.path || anyDerivesFrom bases other
termination_by structural c

def anyDerivesFrom (bases : List Class) (other : Class) : Bool :=
  match bases with
  | [] => false
  | base :: more => base.derivesFrom other || anyDerivesFrom more other
termination_by structural bases

end

theorem anyDerivesFrom_eq_any (bases : List Class) (other : Class) :
    anyDerivesFrom bases other = bases.any (·.derivesFrom other) := by
  induction bases with
  | nil => rfl
  | cons base more ih => simp [anyDerivesFrom, ih]

theorem derivesFrom_eq (c other : Class) :
    c.derivesFrom other = (c == other || c.bases.any (·.derivesFrom other)) := by
  cases c
  rw [derivesFrom, anyDerivesFrom_eq_any]
  rfl

/-- What a class derives from is told by paths alone. -/
theorem derivesFrom_congr {a b : Class} (h : a.path = b.path) (c : Class) :
    c.derivesFrom a = c.derivesFrom b := by
  induction c with
  | mk path bases ih =>
    rw [derivesFrom_eq, derivesFrom_eq, Bool.eq_iff_iff, Bool.or_eq_true, Bool.or_eq_true,
      beq_iff, beq_iff, h, List.any_eq_true, List.any_eq_true]
    exact or_congr_right (exists_congr fun base => and_congr_right fun hb => by rw [ih base hb])

theorem mem_afterDots {name path : Text} :
    name ∈ afterDots path ↔ ∃ before, path = before ++ '.' :: name := by
  induction path with
  | nil => simp [afterDots]
  | cons c rest ih =>
    rw [afterDots]
    split
    case isTrue h =>
      subst h
      rw [List.mem_cons, ih]
      constructor
      · rintro (rfl | ⟨before, rfl⟩)
        · exact ⟨[], rfl⟩
        · exact ⟨'.' :: before, rfl⟩
      · rintro ⟨_ | ⟨d, before⟩, h⟩
        · exact .inl (List.cons.inj h).2.symm
        · exact .inr ⟨before, (List.cons.inj h).2⟩
    case isFalse h =>
      rw [ih]
      constructor
      · rintro ⟨before, rfl⟩
        exact ⟨c :: before, rfl⟩
      · rintro ⟨_ | ⟨d, before⟩, hb⟩
        · exact absurd (List.cons.inj hb).1 h
        · exact ⟨before, (List.cons.inj hb).2⟩

theorem mem_names {name : Text} {c : Class} :
    name ∈ c.names ↔ c.path = name ∨ ∃ before, c.path = before ++ '.' :: name := by
  rw [names, suffixes, List.mem_cons, mem_afterDots]
  exact or_congr_left eq_comm

end Class

end DocTypes
