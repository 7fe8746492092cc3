import DocTypes.Bracket

set_option autoImplicit false

/-!
# Splitting outside brackets

A text is cut at each separator that is not inside brackets; the pieces are trimmed and the blank
ones dropped. Openers raise the depth and closers lower it whatever their kind, and a bracket never
separates.
-/

namespace DocTypes.Bracket

def depthStep (c : Char) : Int :=
  if (ofOpener? c).isSome then 1 else if (ofCloser? c).isSome then -1 else 0

/-- The stretches between separators, read from a place at the given depth. A depth is a whole
number, below zero behind closers that close nothing. In a text of fewer than `2 ^ 31` brackets,
read from depth 0, it stays in the range of a signed count of 32 bits; longer texts are counted
without wrapping. -/
def pieces (separator : Char) : Int → Text → List Text
  | _, [] => [[]]
  | depth, c :: rest =>
    if c = separator ∧ depth = 0 ∧ depthStep c = 0 then [] :: pieces separator depth rest
    else (pieces separator (depth + depthStep c) rest).modifyHead (c :: ·)

def tokens (separator : Char) (text : Text) : List Text :=
  ((pieces separator 0 text).map Text.trim).filter (· ≠ [])

def split (text separator : Text) : Except Fault (List Text) :=
  match separator with
  | [c] => .ok (tokens c text)
  | _ => .error (.badSeparator separator)

theorem pieces_ne_nil (separator : Char) (depth : Int) (text : Text) :
    pieces separator depth text ≠ [] := by
  induction text generalizing depth with
  | nil => simp [pieces]
  | cons c rest ih =>
    rw [pieces]
    split
    · simp
    · simpa using ih _

theorem pieces_length_le (separator : Char) (depth : Int) (text : Text) :
    (pieces separator depth text).length ≤ text.length + 1 := by
  induction text generalizing depth with
  | nil => simp [pieces]
  | cons c rest ih =>
    rw [pieces]
    split
    · simpa using ih depth
    · simpa using Nat.le_succ_of_le (ih _)

theorem length_of_mem_pieces {separator : Char} {depth : Int} {text piece : Text}
    (h : piece ∈ pieces separator depth text) :
    piece.length + (pieces separator depth text).length ≤ text.length + 1 := by
  induction text generalizing depth piece with
  | nil => simp_all [pieces]
  | cons c rest ih =>
    rw [pieces] at h ⊢
    split at h
    case isTrue hs =>
      rw [if_pos hs]
      have hl := pieces_length_le separator depth rest
      rcases List.mem_cons.1 h with rfl | h
      · simpa using hl
      · have := ih h
        simp only [List.length_cons]
        omega
    case isFalse hs =>
      rw [if_neg hs]
      obtain ⟨first, later, he⟩ := List.exists_cons_of_ne_nil
        (pieces_ne_nil separator (depth + depthStep c) rest)
      have bound {p : Text} (hp : p ∈ first :: later) :
          p.length + (first :: later).length ≤ rest.length + 1 := by
        rw [← he] at hp ⊢
        exact ih hp
      rw [he, List.modifyHead_cons] at h ⊢
      rcases List.mem_cons.1 h with rfl | h
      · have := bound (List.mem_cons_self ..)
        simp only [List.length_cons] at this ⊢
        omega
      · have := bound (List.mem_cons_of_mem _ h)
        simp only [List.length_cons] at this ⊢
        omega

theorem exists_piece_of_mem_tokens {separator : Char} {text token : Text}
    (h : token ∈ tokens separator text) :
    token ≠ [] ∧ ∃ piece ∈ pieces separator 0 text, Text.trim piece = token := by
  simpa [tokens, and_comm] using h

theorem length_le_of_mem_tokens {separator : Char} {text token : Text}
    (h : token ∈ tokens separator text) : token.length ≤ text.length := by
  obtain ⟨-, piece, hp, rfl⟩ := exists_piece_of_mem_tokens h
  have hl := length_of_mem_pieces hp
  have ht := Text.trim_length_le piece
  have hn := List.length_pos_of_mem hp
  omega

theorem length_lt_of_mem_tokens {separator : Char} {text token : Text}
    (h : token ∈ tokens separator text) (more : 1 < (tokens separator text).length) :
    token.length < text.length := by
  obtain ⟨-, piece, hp, rfl⟩ := exists_piece_of_mem_tokens h
  have hl := length_of_mem_pieces hp
  have ht := Text.trim_length_le piece
  have hn : (tokens separator text).length ≤ (pieces separator 0 text).length := by
    simpa [tokens] using List.length_filter_le _ ((pieces separator 0 text).map Text.trim)
  omega

end DocTypes.Bracket
