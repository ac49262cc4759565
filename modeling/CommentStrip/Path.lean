import CommentStrip.Text

/-!
# Paths

The file extension that a path ends with. Components are separated by slashes; a component that
is empty or a single dot says nothing and is passed over.
-/
namespace CommentStrip.Path

/-- The pieces of a path between its slashes, empty ones included. -/
def pieces : Text → List Text
  | [] => [[]]
  | c :: rest =>
    if c = '/' then [] :: pieces rest
    else
      match pieces rest with
      | piece :: others => (c :: piece) :: others
      | [] => [[c]]

/-- The names along a path. -/
def components (path : Text) : List Text :=
  (pieces path).filter fun piece => !(piece.isEmpty || piece == ['.'])

/-- The last name of a path, unless it only leads to the parent directory. -/
def fileName? (path : Text) : Option Text :=
  (components path).getLast?.filter (· != ['.', '.'])

/-- What follows the last dot of a file name. A dot that begins the name marks no extension. -/
def nameExtension? (name : Text) : Option Text :=
  match name.reverse.dropWhile (· != '.') with
  | _ :: _ :: _ => some (name.reverse.takeWhile (· != '.')).reverse
  | _ => none

/-- The extension of the file that a path names, without the dot. -/
def extension? (path : Text) : Option Text :=
  (fileName? path).bind nameExtension?

end CommentStrip.Path
