import DocTypes.Text.Blank

set_option autoImplicit false

/-!
# Memos

A memo remembers for each text what was built from it last, and under which stamp. It answers only
for that same stamp. A build that fails leaves it as it was.
-/

namespace DocTypes

/-- What a build depends on: the revision of the catalog and how often the resolver was changed. -/
structure Stamp where
  revision : Nat
  epoch : Nat
  deriving DecidableEq

structure Memo (α : Type) where
  entries : List (Text × Stamp × α)

namespace Memo

variable {α : Type}

def empty : Memo α := ⟨[]⟩

def size (memo : Memo α) : Nat := memo.entries.length

def last? (memo : Memo α) (text : Text) : Option (Stamp × α) :=
  (memo.entries.find? fun entry => entry.1 = text).map Prod.snd

def get? (memo : Memo α) (text : Text) (stamp : Stamp) : Option α :=
  match memo.last? text with
  | some (found, item) => if found = stamp then some item else none
  | none => none

def putEntry (text : Text) (stamp : Stamp) (item : α) :
    List (Text × Stamp × α) → List (Text × Stamp × α)
  | [] => [(text, stamp, item)]
  | (other, kept) :: more =>
    if other = text then (text, stamp, item) :: more
    else (other, kept) :: putEntry text stamp item more

def put (memo : Memo α) (text : Text) (stamp : Stamp) (item : α) : Memo α :=
  ⟨putEntry text stamp item memo.entries⟩

/-- What is remembered for the text under the stamp, or else what `build` makes now, which is
remembered if it succeeds; in the middle, whether anything was built. -/
def getOrBuild {ε : Type} (memo : Memo α) (text : Text) (stamp : Stamp)
    (build : Unit → Except ε α) : Memo α × Bool × Except ε α :=
  match memo.get? text stamp with
  | some item => (memo, false, .ok item)
  | none =>
    match build () with
    | .ok item => (memo.put text stamp item, true, .ok item)
    | .error e => (memo, true, .error e)

theorem last?_put (memo : Memo α) (text other : Text) (stamp : Stamp) (item : α) :
    (memo.put text stamp item).last? other =
      if text = other then some (stamp, item) else memo.last? other := by
  obtain ⟨entries⟩ := memo
  simp only [put, last?]
  induction entries with
  | nil => by_cases h : text = other <;> simp [putEntry, h]
  | cons entry more ih =>
    obtain ⟨first, kept⟩ := entry
    by_cases hf : first = text
    · subst hf
      by_cases h : first = other <;> simp [putEntry, h]
    · by_cases ho : first = other
      · subst ho
        simp [putEntry, hf, Ne.symm hf]
      · simp [putEntry, hf, ho, ih]

end Memo

end DocTypes
