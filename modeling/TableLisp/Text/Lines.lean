import TableLisp.Text.Source

/-!
Bytes as a source of characters. They are taken line by line, and a line that is not UTF-8 ends
the input: it and all that follows are lost.
-/

namespace TableLisp.Text

/-- Splits bytes after each newline byte; only the last line may lack one. -/
def byteLines : List UInt8 → List (List UInt8)
  | [] => []
  | b :: more =>
    if b = 10 then [b] :: byteLines more
    else
      match byteLines more with
      | [] => [[b]]
      | line :: lines => (b :: line) :: lines

def ofUtf8? (bytes : List UInt8) : Option (List Char) :=
  (String.fromUTF8? ⟨bytes.toArray⟩).map String.toList

/-- The characters of the lines before the first that is not UTF-8. -/
def decodeLines : List (List UInt8) → List Char
  | [] => []
  | line :: lines =>
    match ofUtf8? line with
    | none => []
    | some chars => chars ++ decodeLines lines

end TableLisp.Text

namespace TableLisp.Source

def ofBytes (bytes : List UInt8) : Source := ofChars (Text.decodeLines (Text.byteLines bytes))

end TableLisp.Source
