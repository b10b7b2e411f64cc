/-!
# Lines of text

A line ends at a newline, or at a carriage return with a newline behind it.  A carriage return alone
ends no line, and the last line may lack its end.
-/

namespace GscAssembler.Text

/-- The lines of some characters.  The first line begins with the characters of `begun`, which are
in reverse. -/
def linesAfter (begun : List Char) : List Char → List (List Char)
  | [] => if begun.isEmpty then [] else [begun.reverse]
  | '\r' :: '\n' :: rest => begun.reverse :: linesAfter [] rest
  | '\n' :: rest => begun.reverse :: linesAfter [] rest
  | c :: rest => linesAfter (c :: begun) rest

/-- The lines of a text. -/
def lines (text : String) : List String :=
  (linesAfter [] text.toList).map String.ofList

/-- The text of some lines. -/
def unlines (lines : List String) : String :=
  String.join (lines.map (· ++ "\n"))

end GscAssembler.Text
