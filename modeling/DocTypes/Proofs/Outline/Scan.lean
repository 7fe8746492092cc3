import DocTypes.Proofs.Bracket.Closing
import DocTypes.Proofs.Outline.Form

set_option autoImplicit false

/-!
# Forms by scanning

The scans for separators and for closing brackets check the question that they are asked: whether
the separator is a single character, and whether a bracket opens at the index. Reading an expression
with them, and passing on whatever fault they meet, gives the form of the expression: no question
that it asks is wrong.
-/

namespace DocTypes

namespace Form

open DocTypes.Bracket

/-- The two sides of each entry. -/
def scanEntries (text : Text) : List Text → Except Fault (List (Text × Text))
  | [] => return []
  | entry :: more => do
    match ← Bracket.split entry [':'] with
    | [left, right] => return (left, right) :: (← scanEntries text more)
    | _ => throw (.malformed text entry)

def scanInside (text : Text) (kind : Bracket) (inside : Text) : Except Fault Form := do
  match kind with
  | .square => return list inside
  | .angle => return set inside
  | .round => return tuple (← Bracket.split inside [','])
  | .curly =>
    match ← scanEntries text (← Bracket.split inside [',']) with
    | [(key, value)] => return map key value
    | fields => return record fields

def scanBracketed (text : Text) (kind : Bracket) : Except Fault Form := do
  let close ← Bracket.findClose text 0
  if close + 1 ≠ Text.byteLength text then throw (.trailing text)
  scanInside text kind (Text.slice text 1 close)

def scanTrimmed : Text → Except Fault Form
  | [] => return blank
  | c :: rest => do
    let alternatives ← Bracket.split (c :: rest) ['|']
    if 1 < alternatives.length then return union alternatives
    match ofOpener? c with
    | none => return ofName (c :: rest)
    | some kind => scanBracketed (c :: rest) kind

/-- What a scan came to as a form, be it the fault that the scan has met. -/
def ofResult : Except Fault Form → Form
  | .ok form => form
  | .error f => fault f

/-- The form that is found by scanning. -/
def ofScan (text : Text) : Form := ofResult (scanTrimmed (Text.trim text))

theorem scanEntries_eq (text : Text) (entries : List Text) :
    scanEntries text entries = (pairs entries).mapError (.malformed text) := by
  induction entries with
  | nil => rfl
  | cons entry more ih =>
    have hs : scanEntries text (entry :: more) = match tokens ':' entry with
        | [left, right] => (scanEntries text more).map ((left, right) :: ·)
        | _ => .error (.malformed text entry) := rfl
    rw [hs, ih, pairs]
    -- Only an entry of two parts lets the later ones count.
    rcases tokens ':' entry with _ | ⟨left, _ | ⟨right, _ | ⟨third, rest⟩⟩⟩
    · rfl
    · rfl
    · cases pairs more <;> rfl
    · rfl

theorem ofResult_scanInside (text : Text) (kind : Bracket) (inside : Text) :
    ofResult (scanInside text kind inside) = ofInside text kind inside := by
  cases kind with
  | curly =>
    have hs : scanInside text .curly inside =
        (scanEntries text (tokens ',' inside)).bind fun found => match found with
          | [(key, value)] => .ok (map key value)
          | fields => .ok (record fields) := rfl
    rw [hs, scanEntries_eq, ofInside, ofBraces]
    cases pairs (tokens ',' inside) with
    | error entry => rfl
    | ok found =>
      match found with
      | [] => rfl
      | [_] => rfl
      | _ :: _ :: _ => rfl
  | _ => rfl

theorem scanBracketed_of_unmatched {text : Text} {kind : Bracket} {f : Fault}
    (h : findClose text 0 = .error f) : scanBracketed text kind = .error f := by
  rw [scanBracketed, h]
  rfl

theorem scanBracketed_of_close {text : Text} {kind : Bracket} {close : Nat}
    (h : findClose text 0 = .ok close) :
    scanBracketed text kind =
      if close + 1 ≠ Text.byteLength text then .error (.trailing text)
      else scanInside text kind (Text.slice text 1 close) := by
  rw [scanBracketed, h]
  by_cases hl : close + 1 ≠ Text.byteLength text
  · rw [if_pos hl]
    exact if_pos hl
  · rw [if_neg hl]
    exact if_neg hl

/-- A bracket is closed at the last byte exactly when it encloses all that follows it. -/
theorem ofResult_scanBracketed (b : Bracket) (rest : Text) :
    ofResult (scanBracketed (b.opener :: rest) b) =
      ofBracketed (b.opener :: rest) b rest := by
  have ho : Text.byteLength [b.opener] = 1 := utf8Size_opener b
  cases hf : cut? [b] rest with
  | none =>
    have hs : findClose (b.opener :: rest) 0 = .error (.unmatched (b.opener :: rest)) :=
      findClose_of_cut?_eq_none hf []
    rw [scanBracketed_of_unmatched hs, ofBracketed, hf]
    rfl
  | some found =>
    obtain ⟨inside, after⟩ := found
    have hs : findClose (b.opener :: rest) 0 = .ok (Text.byteLength (b.opener :: inside)) :=
      findClose_of_cut? hf []
    obtain ⟨-, rfl⟩ := cut?_eq_some_iff.1 hf
    have hl : Text.byteLength (b.opener :: (inside ++ b.closer :: after)) =
        Text.byteLength (b.opener :: inside) + (1 + Text.byteLength after) := by
      rw [← List.cons_append, Text.byteLength_append, Text.byteLength_cons b.closer,
        utf8Size_closer]
    rw [scanBracketed_of_close hs, hl, ofBracketed, hf]
    cases after with
    | nil =>
      have hi := Text.slice_append [b.opener] inside [b.closer]
      rw [ho, List.singleton_append, List.singleton_append] at hi
      rw [if_neg (by rw [Text.byteLength_nil]; omega), hi, ofResult_scanInside]
    | cons d after =>
      have hp := d.utf8Size_pos
      rw [if_pos (by rw [Text.byteLength_cons d]; omega)]
      rfl

/-- The scans are never asked about a place where no bracket opens, and never for a separator that
is not a single character: what they find wrong is what is wrong with the text. -/
theorem ofScan_eq (text : Text) : ofScan text = ofText text := by
  rw [ofScan, ofText]
  cases Text.trim text with
  | nil => rfl
  | cons c rest =>
    have hs : scanTrimmed (c :: rest) =
        if 1 < (tokens '|' (c :: rest)).length then .ok (union (tokens '|' (c :: rest)))
        else match ofOpener? c with
          | none => .ok (ofName (c :: rest))
          | some kind => scanBracketed (c :: rest) kind := rfl
    rw [hs, ofTrimmed]
    by_cases hm : 1 < (tokens '|' (c :: rest)).length
    · rw [if_pos hm, if_pos hm]
      rfl
    · rw [if_neg hm, if_neg hm]
      cases ho : ofOpener? c with
      | none => rfl
      | some b =>
        obtain rfl := ofOpener?_eq_some.1 ho
        exact ofResult_scanBracketed b rest

end Form

namespace Outline

/-- Reads an expression by scanning it from its outermost construct inwards. -/
def scan (text : Text) : Outline := ofForm (Form.ofScan text) fun part _ => scan part
termination_by text.length
decreasing_by exact Form.length_part_lt (Form.ofScan_eq text ▸ ‹_›)

theorem scan_eq_read (text : Text) : scan text = read text := by
  induction hn : text.length using Nat.strongRecOn generalizing text with
  | ind n ih =>
    have hp : (fun part (_ : part ∈ (Form.ofScan text).parts) => scan part) =
        fun part _ => read part := by
      funext part hm
      rw [Form.ofScan_eq] at hm
      exact ih part.length (hn ▸ Form.length_part_lt hm) part rfl
    rw [scan, hp, ofForm_eq_build, read_eq, Form.ofScan_eq]

end Outline

end DocTypes
