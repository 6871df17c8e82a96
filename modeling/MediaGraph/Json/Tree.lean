import MediaGraph.Json.Token

/-! The shape of a JSON text.
Brackets, colons and commas are checked here and nothing else: members keep
their order and their repetitions, numbers their digits, texts their pieces. -/
namespace MediaGraph.Json

inductive Tree where
  | null
  | bool (b : Bool)
  | numeral (n : Numeral)
  | text (pieces : List Piece)
  | array (items : List Tree)
  | object (members : List (List Piece × Tree))

inductive Frame where
  | array (items : List Tree)
  | object (members : List (List Piece × Tree))
  /-- An object whose member `key` is being read. -/
  | member (members : List (List Piece × Tree)) (key : List Piece)

inductive Mode where
  | value
  | firstItem
  | firstKey
  | key
  | colon (key : List Piece)
  | next
  | finished (tree : Tree)

structure Reader where
  frames : List Frame
  mode : Mode

namespace Reader

/-- A value is complete: it goes into the innermost open container. -/
def close (tree : Tree) : List Frame → Option Reader
  | [] => some ⟨[], .finished tree⟩
  | .array items :: rest => some ⟨.array (tree :: items) :: rest, .next⟩
  | .member members key :: rest => some ⟨.object ((key, tree) :: members) :: rest, .next⟩
  | .object _ :: _ => none

def value (frames : List Frame) : Token → Option Reader
  | .openArray => some ⟨.array [] :: frames, .firstItem⟩
  | .openObject => some ⟨.object [] :: frames, .firstKey⟩
  | .null => close .null frames
  | .bool b => close (.bool b) frames
  | .numeral n => close (.numeral n) frames
  | .text pieces => close (.text pieces) frames
  | _ => none

def step (r : Reader) (token : Token) : Option Reader :=
  match r.mode, r.frames, token with
  | .firstItem, .array items :: rest, .closeArray => close (.array items.reverse) rest
  | .firstItem, frames, token => value frames token
  | .value, frames, token => value frames token
  | .firstKey, .object members :: rest, .closeObject => close (.object members.reverse) rest
  | .firstKey, frames, .text key => some ⟨frames, .colon key⟩
  | .key, frames, .text key => some ⟨frames, .colon key⟩
  | .colon key, .object members :: rest, .colon => some ⟨.member members key :: rest, .value⟩
  | .next, .array items :: rest, .comma => some ⟨.array items :: rest, .value⟩
  | .next, .object members :: rest, .comma => some ⟨.object members :: rest, .key⟩
  | .next, .array items :: rest, .closeArray => close (.array items.reverse) rest
  | .next, .object members :: rest, .closeObject => close (.object members.reverse) rest
  | _, _, _ => none

end Reader

def Tree.ofTokens? (tokens : List Token) : Option Tree := do
  let last ← tokens.foldlM Reader.step ⟨[], .value⟩
  match last.mode with
  | .finished tree => some tree
  | _ => none

def Tree.parse? (s : String) : Option Tree := do
  Tree.ofTokens? (← tokens s.toList)

end MediaGraph.Json
