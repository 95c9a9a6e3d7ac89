set_option autoImplicit false

/-! # Upper and lower case

Names given by a user are compared with ASCII names without regard to case. Two letters beyond ASCII
take part in this: the long s and the Kelvin sign fold to ASCII letters, and the dotless i has an
ASCII capital. No other letter does, so the functions here leave it alone. Where bytes are counted,
some more letters matter, because their small letter is longer or shorter. -/

namespace InlinePlan.Text

/-- The long s. -/
def longS : Char := 'ſ'

/-- The Kelvin sign. -/
def kelvin : Char := '\u212a'

/-- The dotless i. -/
def dotlessI : Char := 'ı'

/-- The ASCII small letter that a letter folds to, if any; else the character itself. -/
def foldCase (c : Char) : Char :=
  if c = longS then 's' else if c = kelvin then 'k' else c.toLower

/-- The ASCII capital of a letter, if any; else the character itself. -/
def capital (c : Char) : Char :=
  if c = longS then 'S' else if c = dotlessI then 'I' else c.toUpper

/-- Whether a text is an ASCII name but for case. -/
def equalFold (text name : String) : Bool := text.toList.map foldCase == name.toList.map foldCase

/-- The letters beyond ASCII whose small letter takes another number of bytes. -/
def resizedSmall : List (Char × Char) :=
  [('\u0130', 'i'), ('\u023a', '\u2c65'), ('\u023e', '\u2c66'), ('\u1e9e', '\u00df'),
    ('\u2126', '\u03c9'), ('\u212a', 'k'), ('\u212b', '\u00e5'), ('\u2c62', '\u026b'),
    ('\u2c64', '\u027d'), ('\u2c6d', '\u0251'), ('\u2c6e', '\u0271'), ('\u2c6f', '\u0250'),
    ('\u2c70', '\u0252'), ('\u2c7e', '\u023f'), ('\u2c7f', '\u0240'), ('\ua78d', '\u0265'),
    ('\ua7aa', '\u0266'), ('\ua7ab', '\u025c'), ('\ua7ac', '\u0261'), ('\ua7ad', '\u026c'),
    ('\ua7ae', '\u026a'), ('\ua7b0', '\u029e'), ('\ua7b1', '\u0287'), ('\ua7b2', '\u029d'),
    ('\ua7c5', '\u0282')]

/-- The small letter of a letter, if it is ASCII or takes another number of bytes; else the
    character itself. That is enough to compare bytes with an ASCII name. -/
def smallLetter (c : Char) : Char := (resizedSmall.lookup c).getD c.toLower

/-- A text in capitals, where they are ASCII. -/
def capitals (text : String) : String := String.ofList (text.toList.map capital)

end InlinePlan.Text
