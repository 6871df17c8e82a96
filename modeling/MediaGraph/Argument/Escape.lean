import MediaGraph.Text.Blank

/-! The two levels of quoting in a filter's arguments.
Inside one value a backslash stands before each backslash, colon and apostrophe.
Around the whole argument text, runs of plain characters stand between
apostrophes, and a backslash stands before each backslash, apostrophe and comma
outside them. Each level has its reader beside it. -/
namespace MediaGraph.Argument

def isReserved (c : Char) : Bool := c = '\\' || c = ':' || c = '\''

def escape : List Char → List Char
  | [] => []
  | c :: rest => if isReserved c then '\\' :: c :: escape rest else c :: escape rest

/-- The values of an argument text: cut at the colons that no backslash
protects, each with its backslashes resolved. -/
def values : List Char → List (List Char)
  | [] => [[]]
  | '\\' :: c :: rest =>
    match values rest with
    | [] => [[c]]
    | value :: more => (c :: value) :: more
  | c :: rest =>
    if c = ':' then [] :: values rest
    else if c = '\\' then values rest
    else
      match values rest with
      | [] => [[c]]
      | value :: more => (c :: value) :: more

def isStructural (c : Char) : Bool := c = '\\' || c = '\'' || c = ','

/-- The quoted form of a text; the flag says whether a run is open before it. -/
def quoteFrom : Bool → List Char → List Char
  | true, [] => ['\'']
  | false, [] => []
  | true, c :: rest =>
    if isStructural c then '\'' :: '\\' :: c :: quoteFrom false rest
    else c :: quoteFrom true rest
  | false, c :: rest =>
    if isStructural c then '\\' :: c :: quoteFrom false rest
    else '\'' :: c :: quoteFrom true rest

def quote (s : List Char) : List Char := quoteFrom false s

/-- The text behind a quoted form: apostrophes go, and outside them a backslash
gives way to the character after it. -/
def unquoteFrom : Bool → List Char → List Char
  | _, [] => []
  | inside, '\'' :: rest => unquoteFrom (!inside) rest
  | false, '\\' :: c :: rest => c :: unquoteFrom false rest
  | false, ['\\'] => []
  | inside, c :: rest => c :: unquoteFrom inside rest

def unquote (s : List Char) : List Char := unquoteFrom false s

end MediaGraph.Argument
