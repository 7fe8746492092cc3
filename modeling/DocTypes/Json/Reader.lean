import DocTypes.Json.Token

set_option autoImplicit false

/-!
# Reading JSON documents

The tokens of a document are taken in one at a time. In between stand the containers that are open,
the innermost first, and what may come next. At most `deepest` containers are open at once.
-/

namespace DocTypes.Json

/-- An open container: the items or members so far, and the key whose value is being read. -/
inductive Frame where
  | items (read : List Json)
  | members (read : List (Text × Json))
  | member (read : List (Text × Json)) (key : Text)

/-- What may come next: a value, a value or the end of an array, a key, a key or the end of an
object, a colon, or what may stand after a value. -/
inductive Phase where
  | value
  | firstItem
  | key
  | firstKey
  | colon (key : Text)
  | after (value : Json)

structure Reading where
  frames : List Frame
  phase : Phase

namespace Reading

def start : Reading := ⟨[], .value⟩

def deepest : Nat := 127

def enter (reading : Reading) (frame : Frame) (phase : Phase) : Option Reading :=
  if reading.frames.length < deepest then some ⟨frame :: reading.frames, phase⟩ else none

def beginValue (reading : Reading) : Token → Option Reading
  | .scalar value => some ⟨reading.frames, .after value⟩
  | .mark '[' => reading.enter (.items []) .firstItem
  | .mark '{' => reading.enter (.members []) .firstKey
  | .mark _ => none

def readKey (frames : List Frame) : Token → Option Reading
  | .scalar (.string key) => some ⟨frames, .colon key⟩
  | _ => none

/-- Takes a value into the innermost container, and ends that or goes on after a comma. -/
def afterValue (value : Json) (mark : Char) : List Frame → Option Reading
  | .items read :: below =>
    if mark = ',' then some ⟨.items (value :: read) :: below, .value⟩
    else if mark = ']' then some ⟨below, .after (.array (value :: read).reverse)⟩
    else none
  | .member read key :: below =>
    if mark = ',' then some ⟨.members (putMember key value read) :: below, .key⟩
    else if mark = '}' then some ⟨below, .after (.object (putMember key value read))⟩
    else none
  | _ => none

def step (reading : Reading) (token : Token) : Option Reading :=
  match reading.phase, reading.frames, token with
  | .value, _, token => reading.beginValue token
  | .firstItem, _ :: below, .mark ']' => some ⟨below, .after (.array [])⟩
  | .firstItem, _, token => reading.beginValue token
  | .key, frames, token => readKey frames token
  | .firstKey, _ :: below, .mark '}' => some ⟨below, .after (.object [])⟩
  | .firstKey, frames, token => readKey frames token
  | .colon key, .members read :: below, .mark ':' => some ⟨.member read key :: below, .value⟩
  | .after value, frames, .mark c => afterValue value c frames
  | _, _, _ => none

/-- The document, when its value has ended and no container is open. -/
def result? : Reading → Option Json
  | ⟨[], .after value⟩ => some value
  | _ => none

end Reading

/-- The document that a text is. -/
def ofText? (text : Text) : Option Json :=
  (Token.readAll? text).bind fun tokens => (tokens.foldlM Reading.step .start).bind Reading.result?

end DocTypes.Json
