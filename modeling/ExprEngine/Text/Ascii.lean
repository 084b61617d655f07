import ExprEngine.Text.Offset

/-!
# Letters, digits and names

Names and keywords of expressions are ASCII, so every class here is the ASCII class.

* `Text.isNameStart`, `Text.isNameRest`   the characters of a name;
* `Text.isName`                           a whole name;
* `Text.sameIgnoringCase`                 equality of texts up to the case of ASCII letters.
-/

namespace ExprEngine.Text

/-- A letter or an underscore. -/
def isNameStart (c : Char) : Bool := c.isAlpha || c == '_'

/-- A letter, a digit or an underscore. -/
def isNameRest (c : Char) : Bool := c.isAlphanum || c == '_'

/-- Whether a text could be written as one name. -/
def isName : Text → Bool
  | [] => false
  | c :: cs => isNameStart c && cs.all isNameRest

/-- Whether two texts agree up to the case of ASCII letters. -/
def sameIgnoringCase (a b : String) : Bool := a.toList.map Char.toLower == b.toList.map Char.toLower

theorem isName_nil : isName [] = false := rfl
theorem isName_cons (c : Char) (cs : Text) :
    isName (c :: cs) = (isNameStart c && cs.all isNameRest) := rfl

end ExprEngine.Text
