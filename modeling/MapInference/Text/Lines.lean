/-!
# Lines of bytes

A line ends with a newline byte; a carriage return before it belongs to the end. What follows the
last newline is a line unless it is empty.
-/

namespace MapInference.Text

def newline : UInt8 := 10
def carriageReturn : UInt8 := 13

/-- Drops a carriage return at the end of a line that is given backwards, and turns it around. -/
def closeLine : List UInt8 → List UInt8
  | [] => []
  | b :: rest => if b == carriageReturn then rest.reverse else (b :: rest).reverse

/-- The lines of a source, given the beginning of the current line, last byte first. -/
def linesFrom (current : List UInt8) : List UInt8 → List (List UInt8)
  | [] => if current.isEmpty then [] else [current.reverse]
  | b :: rest =>
    if b == newline then closeLine current :: linesFrom [] rest
    else linesFrom (b :: current) rest

def lines (bytes : List UInt8) : List (List UInt8) := linesFrom [] bytes

def decode? (line : List UInt8) : Option (List Char) :=
  (String.fromUTF8? ⟨line.toArray⟩).map String.toList

end MapInference.Text
