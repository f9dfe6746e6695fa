/-!
# Names and paths

A name is a letter or an underscore followed by letters, digits and underscores, all of them ASCII.
A path is one or more names with a point between any two.
-/

namespace Dataflow.Name

/-- A character that may begin a name: an ASCII letter or an underscore. -/
def isInitial (c : Char) : Bool := c.isAlpha || c = '_'

/-- A character that may follow in a name: an ASCII letter or digit, or an underscore. -/
def isFollowing (c : Char) : Bool := c.isAlphanum || c = '_'

def isName : List Char → Bool
  | [] => false
  | c :: rest => isInitial c && rest.all isFollowing

def isValid (s : String) : Bool := isName s.toList

/-- The pieces of a text between its points; there is one more piece than points. -/
def pieces : List Char → List (List Char)
  | [] => [[]]
  | c :: rest =>
    if c = '.' then [] :: pieces rest
    else match pieces rest with
      | [] => [[c]]
      | piece :: more => (c :: piece) :: more

/-- The names of a path, if all of its pieces are names. -/
def ofPath? (path : String) : Option (List String) :=
  let ps := pieces path.toList
  if ps.all isName then some (ps.map String.ofList) else none

def toPath (names : List String) : String :=
  String.ofList (List.intercalate ['.'] (names.map String.toList))

end Dataflow.Name
