import ScriptTree.Text.Blank
import ScriptTree.Text.Literal

/-!
# Lexemes

The smallest pieces of a script, each described by the number of characters that it takes at the
start of a list of characters. The descriptions do not depend on each other: which kind of piece is
looked for is decided by the grammar, so a slash starts a regular expression only where an operand
may stand.
-/

namespace ScriptTree.Lexeme

/-! ### Words -/

/-- Marks that may not occur in a name. -/
def marks : List Char :=
  [':', ';', '\x60', '"', '\'', '@', '#', '.', ',', '|', '^', '&', '<', '=', '>', '+', '-', '*', '/',
    '\\', '%', '?', '!', '~', '(', ')', '[', ']', '\x7b', '\x7d']

def isNameChar (c : Char) : Bool := !(c.toNat < 0x20 || isBlank c || marks.contains c)

def isHex (c : Char) : Bool := (hexValue? c).isSome

/-- The length of the escape after a backslash that names a character by number, `0` if there is
none: four digits, or any number of them in braces. -/
def numberEscape : List Char → Nat
  | 'u' :: '\x7b' :: rest =>
    let digits := rest.takeWhile isHex
    if !digits.isEmpty && (rest.drop digits.length).head? == some '\x7d' then digits.length + 3
    else 0
  | 'u' :: rest => if ((rest.take 4).takeWhile isHex).length == 4 then 5 else 0
  | _ => 0

/-- The length of one element of a name, `0` if there is none. -/
def nameElement (first : Bool) : List Char → Nat
  | [] => 0
  | '\\' :: rest => if numberEscape rest = 0 then 0 else numberEscape rest + 1
  | c :: _ => if isNameChar c && !(first && c.isDigit) then 1 else 0

/-- The length of a name, after passing over `skip` characters of an escape. -/
def nameFrom (first : Bool) (skip : Nat) : List Char → Nat
  | [] => 0
  | c :: cs =>
    match skip with
    | n + 1 => 1 + nameFrom false n cs
    | 0 =>
      match nameElement first (c :: cs) with
      | 0 => 0
      | k + 1 => 1 + nameFrom false k cs

def identifier (cs : List Char) : Nat := nameFrom true 0 cs

def privateName : List Char → Nat
  | '#' :: cs => if identifier cs = 0 then 0 else identifier cs + 1
  | _ => 0

/-- **Reserved** words, which never name a variable. -/
def reserved : List String :=
  ["break", "case", "catch", "class", "const", "continue", "debugger", "default", "delete", "do",
    "else", "export", "extends", "false", "finally", "for", "function", "if", "import", "in",
    "instanceof", "new", "null", "return", "super", "switch", "this", "throw", "true", "try",
    "typeof", "var", "void", "while", "with"]

def isReserved (word : List Char) : Bool := reserved.contains (String.ofList word)

/-! ### Numbers -/

/-- The length of digits with single underscores between them. -/
def digitRun (isDigit : Char → Bool) : List Char → Nat
  | [] => 0
  | c :: cs =>
    if isDigit c then
      match cs with
      | '_' :: d :: _ => if isDigit d then 1 + afterUnderscore isDigit cs else 1
      | _ => 1 + digitRun isDigit cs
    else 0
where
  /-- The length of an underscore and the digits after it. -/
  afterUnderscore (isDigit : Char → Bool) : List Char → Nat
    | [] => 0
    | _ :: cs => 1 + digitRun isDigit cs

def exponent : List Char → Nat
  | c :: cs =>
    if c = 'e' ∨ c = 'E' then
      let (sign, body) :=
        match cs with
        | '+' :: more => (1, more)
        | '-' :: more => (1, more)
        | other => (0, other)
      let digits := digitRun Char.isDigit body
      if digits = 0 then 0 else 1 + sign + digits
    else 0
  | [] => 0

/-- The length of the suffix that marks a big integer. -/
def bigSuffix (cs : List Char) : Nat := if cs.head? = some 'n' then 1 else 0

/-- The length of a number with a mark for its base. -/
def marked (isDigit : Char → Bool) (cs : List Char) : Nat :=
  let digits := digitRun isDigit (cs.drop 2)
  if digits = 0 then 0 else 2 + digits + bigSuffix (cs.drop (2 + digits))

/-- Whether a whole part may have a fraction: it starts with at most one zero. -/
def allowsFraction (whole : List Char) : Bool :=
  match whole with
  | '0' :: d :: _ => '1' ≤ d && d ≤ '9'
  | _ => true

/-- The length of a decimal number. -/
def decimal (cs : List Char) : Nat :=
  let whole := digitRun Char.isDigit cs
  let rest := cs.drop whole
  let fraction (digitsNeeded : Bool) : Nat :=
    match rest with
    | '.' :: more =>
      let digits := digitRun Char.isDigit more
      if digitsNeeded && digits = 0 then 0 else 1 + digits
    | _ => 0
  if whole = 0 then
    let f := fraction true
    if f = 0 then 0 else f + exponent (rest.drop f)
  else if bigSuffix rest = 1 then whole + 1
  else if allowsFraction (cs.take whole) then
    let f := fraction false
    whole + f + exponent (rest.drop f)
  else whole

def number (cs : List Char) : Nat :=
  match cs with
  | '0' :: m :: _ =>
    if m = 'x' ∨ m = 'X' then marked isHex cs
    else if m = 'o' ∨ m = 'O' then marked (fun c => '0' ≤ c && c ≤ '7') cs
    else if m = 'b' ∨ m = 'B' then marked (fun c => c == '0' || c == '1') cs
    else decimal cs
  | _ => decimal cs

/-! ### Strings, templates and regular expressions -/

/-- The length of the escape after a backslash in a string, `0` if it is not well formed. -/
def stringEscape : List Char → Nat
  | [] => 0
  | 'x' :: rest => if ((rest.take 2).takeWhile isHex).length == 2 then 3 else 0
  | '\r' :: '\n' :: _ => 2
  | c :: rest => if c = 'u' then numberEscape (c :: rest) else 1

/-- The length of the rest of a string up to and with its closing quote. -/
def stringFrom? (quote : Char) (skip : Nat) : List Char → Option Nat
  | [] => none
  | c :: cs =>
    match skip with
    | n + 1 => (stringFrom? quote n cs).map (· + 1)
    | 0 =>
      if c = quote then some 1
      else if c = '\\' then
        match stringEscape cs with
        | 0 => none
        | k + 1 => (stringFrom? quote (k + 1) cs).map (· + 1)
      else if c = '\n' ∨ c = '\r' then none
      else (stringFrom? quote 0 cs).map (· + 1)

def string? : List Char → Option Nat
  | c :: cs => if c = '"' ∨ c = '\'' then (stringFrom? c 0 cs).map (· + 1) else none
  | [] => none

/-- The length of the rest of a string in markup, where nothing is escaped. -/
def markupString? : List Char → Option Nat
  | c :: cs =>
    if c = '"' ∨ c = '\'' then
      let body := cs.takeWhile (· != c)
      if body.length < cs.length then some (body.length + 2) else none
    else none
  | [] => none

/-- The length of the characters of a template up to a substitution or the closing mark, after
passing over `skip` characters of an escape; nothing if the template does not end. -/
def templateFrom? (skip : Nat) : List Char → Option Nat
  | [] => none
  | c :: cs =>
    match skip with
    | n + 1 => (templateFrom? n cs).map (· + 1)
    | 0 =>
      if c = '\x60' then some 0
      else if c = '$' ∧ cs.head? = some '\x7b' then some 0
      else if c = '\\' then
        match stringEscape cs with
        | 0 => none
        | k + 1 => (templateFrom? (k + 1) cs).map (· + 1)
      else (templateFrom? 0 cs).map (· + 1)

/-- The length of the characters of a template up to a substitution or the closing mark. -/
def templateChars? (cs : List Char) : Option Nat := templateFrom? 0 cs

/-- The length of the rest of a regular expression up to and with its closing slash; a slash inside
brackets does not close it. -/
def regexFrom? (inClass : Bool) (escaped : Bool) : List Char → Option Nat
  | [] => none
  | c :: cs =>
    if c = '\n' then none
    else if escaped then (regexFrom? inClass false cs).map (· + 1)
    else if c = '\\' then (regexFrom? inClass true cs).map (· + 1)
    else if inClass then (regexFrom? (c != ']') false cs).map (· + 1)
    else if c = '/' then some 1
    else (regexFrom? (c == '[') false cs).map (· + 1)

/-- The length of the **regular expression** at the start, with its flags. -/
def regex? : List Char → Option Nat
  | '/' :: cs =>
    if cs.head? = some '/' ∨ cs.head? = some '*' then none
    else (regexFrom? false false cs).map fun n =>
      1 + n + ((cs.drop n).takeWhile fun c => 'a' ≤ c && c ≤ 'z').length
  | _ => none

/-- The length of the character reference at the start of text in markup. -/
def characterReference? : List Char → Option Nat
  | '&' :: cs =>
    let body := cs.takeWhile (· != ';')
    if !body.isEmpty && body.length < cs.length && body.all (fun c => c.isAlphanum || c == '#') then
      some (body.length + 2)
    else none
  | _ => none

/-! ### Punctuators -/

/-- Punctuators of more than one character, the longest first. -/
def longPunctuators : List String :=
  [">>>=", "...", "===", "!==", "**=", "<<=", ">>=", ">>>", "&&=", "||=", "??=", "=>", "==", "!=",
    "<=", ">=", "&&", "||", "??", "++", "--", "+=", "-=", "*=", "/=", "%=", "&=", "|=", "^=", "<<",
    ">>", "**"]

/-- Whether the characters start with the mark of an optional chain; before a digit a question mark
stands alone. -/
def startsChain : List Char → Bool
  | '?' :: '.' :: rest => !(rest.head?.any Char.isDigit)
  | _ => false

/-- The longest **punctuator** at the start; any other mark counts as one by itself. -/
def punctuator (cs : List Char) : String :=
  if startsChain cs then "?."
  else match longPunctuators.find? fun p => p.toList.isPrefixOf cs with
    | some p => p
    | none => String.ofList (cs.take 1)

end ScriptTree.Lexeme
