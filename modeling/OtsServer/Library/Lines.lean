import OtsServer.Library.Text

/-!
# Lines and words

The readings of Python's `splitlines`, `split`, `strip` and `partition` on texts. Nothing here
depends on what the lines say.
-/

namespace Text

/-- What `splitlines` ends a line at. -/
def isLineBreak (c : Char) : Bool :=
  (0x0a ≤ c.toNat && c.toNat ≤ 0x0d) || (0x1c ≤ c.toNat && c.toNat ≤ 0x1e) ||
    [0x85, 0x2028, 0x2029].contains c.toNat

/-- What `str.split` and `str.strip` pass over. -/
def isBlank (c : Char) : Bool := isSpace c || (0x1c ≤ c.toNat && c.toNat ≤ 0x1f)

/-- The lines of a text after the characters of a line that has begun, these in reverse. -/
def linesFrom (begun : Text) : Text → List Text
  | [] => if begun = [] then [] else [begun.reverse]
  | '\r' :: '\n' :: text => begun.reverse :: linesFrom [] text
  | c :: text =>
      if isLineBreak c then begun.reverse :: linesFrom [] text else linesFrom (c :: begun) text

/-- `text.splitlines()`. -/
def lines (text : Text) : List Text := linesFrom [] text

/-- The words of a text after the characters of a word that has begun, these in reverse. -/
def wordsFrom (begun : Text) : Text → List Text
  | [] => if begun = [] then [] else [begun.reverse]
  | c :: text =>
      if isBlank c then if begun = [] then wordsFrom [] text else begun.reverse :: wordsFrom [] text
      else wordsFrom (c :: begun) text

/-- `text.split()`. -/
def words (text : Text) : List Text := wordsFrom [] text

/-- `text.strip()`. -/
def trim (text : Text) : Text := ((text.dropWhile isBlank).reverse.dropWhile isBlank).reverse

/-- What stands after the first `part`; `none` when it is not in the text. -/
def after (part : Text) : Text → Option Text
  | [] => if part = [] then some [] else none
  | c :: text =>
      if part.isPrefixOf (c :: text) then some ((c :: text).drop part.length) else after part text

/-- What stands before the first `part`; the whole text when it is not in it. -/
def before (part : Text) : Text → Text
  | [] => []
  | c :: text => if part.isPrefixOf (c :: text) then [] else c :: before part text

/-- What stands after the last `part`; `none` when it is not in the text. -/
def afterLast (part : Text) : Text → Option Text
  | [] => if part = [] then some [] else none
  | c :: text =>
      (afterLast part text).or (if part.isPrefixOf (c :: text) then
          some ((c :: text).drop part.length) else none)

/-- `part in text`. -/
def holds (part text : Text) : Bool := (after part text).isSome

example : lines ['a', '\r', '\n', '\n', 'b'] = [['a'], [], ['b']] := by decide

example : words [' ', 'a', '\t', ' ', 'b'] = [['a'], ['b']] := by decide

end Text
