import ScriptTree.Json.Basic
import ScriptTree.Text.JsonString
import ScriptTree.Text.Snippet

/-!
# Writing JSON

`Json.render` writes a value on one line in plain ASCII, with a blank after each comma and colon.
`Json.display` is the form in which log records show a value that is neither text nor number:
strings between single quotes and the constants with a capital letter.
-/

namespace ScriptTree.Json

/-- A number as JSON; the special doubles have names. -/
def numberText : Number → Text
  | .integer n => Text.ofInt n
  | .double .nan => "NaN"
  | .double (.infinite false) => "Infinity"
  | .double (.infinite true) => "-Infinity"
  | .double d => d.text

mutual

/-- A value written as **JSON** on one line. -/
def render : Json → Text
  | .null => "null"
  | .bool b => if b then "true" else "false"
  | .number n => numberText n
  | .string t => JsonString.quote true t
  | .array items => ("[" : Text) ++ renderItems items ++ ("]" : Text)
  | .object fields => ("\x7b" : Text) ++ renderFields fields ++ ("\x7d" : Text)

/-- Values with commas between them. -/
def renderItems : List Json → Text
  | [] => []
  | [x] => render x
  | x :: xs => render x ++ (", " : Text) ++ renderItems xs

/-- Fields with commas between them. -/
def renderFields : List (Text × Json) → Text
  | [] => []
  | [(n, v)] => JsonString.quote true n ++ (": " : Text) ++ render v
  | (n, v) :: rest =>
    JsonString.quote true n ++ (": " : Text) ++ render v ++ (", " : Text) ++ renderFields rest

end

mutual

/-- A value as shown **inside** another one. -/
def display : Json → Text
  | .null => "None"
  | .bool b => if b then "True" else "False"
  | .number (.integer n) => Text.ofInt n
  | .number (.double d) => d.text
  | .string t => Snippet.quote t
  | .array items => ("[" : Text) ++ displayItems items ++ ("]" : Text)
  | .object fields => ("\x7b" : Text) ++ displayFields fields ++ ("\x7d" : Text)

/-- Shown values with commas between them. -/
def displayItems : List Json → Text
  | [] => []
  | [x] => display x
  | x :: xs => display x ++ (", " : Text) ++ displayItems xs

/-- Shown fields with commas between them. -/
def displayFields : List (Text × Json) → Text
  | [] => []
  | [(n, v)] => Snippet.quote n ++ (": " : Text) ++ display v
  | (n, v) :: rest =>
    Snippet.quote n ++ (": " : Text) ++ display v ++ (", " : Text) ++ displayFields rest

end

end ScriptTree.Json
