import Ysh.Character

/-!
# Names

What may name a variable, a parameter, a function or a loop binding. Eleven
words of the language are reserved; `func`, `proc` and `return` are not among
them, since they are commands in the places where they do not introduce
anything.

## Main definitions

* `isValidName`: A text is a letter or underscore followed by letters, digits
  and underscores.
* `isReserved`: A text is one of the eleven reserved words.
-/

namespace Ysh

/-- A letter or underscore, followed by letters, digits and underscores. -/
def isValidName (text : String) : Bool :=
  match text.toList with
  | [] => false
  | c :: cs => Character.isNameStart c && cs.all Character.isNamePart

/-- The words that introduce or join a construct, and so name nothing. -/
def reservedWords : List String :=
  ["var", "setvar", "setglobal", "const", "for", "in", "while", "if", "elif", "else", "case"]

/-- A word that cannot name anything. -/
def isReserved (word : String) : Bool :=
  reservedWords.contains word

end Ysh
