import ScriptTree.FileSystem.Lookup
import ScriptTree.Shell.Token

/-!
# Small programs

The programs that scripts of the host call. Each reads a file system, arguments and an input, and
gives an output and a status.
-/

namespace ScriptTree.Shell

/-- What a program **printed** and the status it ended with. -/
structure Outcome where
  output : Bytes := []
  status : Int := 0

abbrev Program := FileSystem → List Text → Bytes → Outcome

/-- The bytes of a text; what has no bytes is left out. -/
def bytesOf (t : Text) : Bytes := Utf8.encodeChars (t.filterMap CodePoint.char?)

/-- The text of bytes; bytes that cannot be read end it. -/
def textOf (bytes : Bytes) : Text :=
  match Utf8.decode bytes with
  | .ok cs => Text.ofChars cs
  | .error fault =>
    match Utf8.decode (bytes.take fault.position) with
    | .ok cs => Text.ofChars cs
    | .error _ => []

def lineOf (t : Text) : Text := t ++ [.scalar '\n']

/-- The lines of a text, without an empty one at the end. -/
def linesOf (t : Text) : List Text :=
  let lines := t.splitOn (.scalar '\n')
  if lines.getLast? = some [] then lines.dropLast else lines

def prints (t : Text) : Outcome := { output := bytesOf (lineOf t) }

/-- Prints its arguments as they are. -/
def echo : Program := fun _ args _ =>
  match args with
  | first :: rest =>
    if first = "-n" then { output := bytesOf (Text.join " " rest) } else prints (Text.join " " args)
  | [] => prints []

/-- What an escape in an argument stands for, and the rest. -/
def printedEscape (c : CodePoint) (rest : Text) : Text × Text :=
  let octal := (rest.take 3).takeWhile (·.satisfies fun d => '0' ≤ d && d ≤ '7')
  match c with
  | .scalar 'n' => ("\n", rest)
  | .scalar 't' => ("\t", rest)
  | .scalar 'r' => ("\r", rest)
  | .scalar 'a' => ("\x07", rest)
  | .scalar 'b' => ("\x08", rest)
  | .scalar 'f' => ("\x0c", rest)
  | .scalar 'v' => ("\x0b", rest)
  | .scalar '\\' => ("\\", rest)
  | .scalar '0' =>
    (Text.ofChars [Char.ofNat (octal.foldl (fun n d => n * 8 + (d.toNat - 48)) 0)],
      rest.drop octal.length)
  | c => ([.scalar '\\', c], rest)

/-- A text with its escapes resolved; `n` bounds their number. -/
def printed : Nat → Text → Text
  | 0, t => t
  | n + 1, t =>
    match t with
    | .scalar '\\' :: c :: rest =>
      let (shown, rest) := printedEscape c rest
      shown ++ printed n rest
    | c :: rest => c :: printed n rest
    | [] => []

/-- Prints its arguments with escapes resolved, as the shell itself does. -/
def echoEscaped : Program := fun fs args input =>
  echo fs (args.map fun a => printed a.length a) input

/-- Fills the arguments into a format, once; what is left of them comes second. -/
def filled : Nat → Text → List Text → Text × List Text
  | 0, t, args => (t, args)
  | n + 1, t, args =>
    match t with
    | .scalar '%' :: .scalar '%' :: rest =>
      let (shown, args) := filled n rest args
      (.scalar '%' :: shown, args)
    | .scalar '%' :: _ :: rest =>
      let (shown, left) := filled n rest args.tail
      (args.headD [] ++ shown, left)
    | .scalar '\\' :: c :: rest =>
      let (escaped, rest) := printedEscape c rest
      let (shown, args) := filled n rest args
      (escaped ++ shown, args)
    | c :: rest =>
      let (shown, args) := filled n rest args
      (c :: shown, args)
    | [] => ([], args)

/-- Fills the arguments into a format as often as there are any left. -/
def filledAll : Nat → Text → List Text → Text
  | 0, _, _ => []
  | n + 1, format, args =>
    let (shown, left) := filled format.length format args
    if left.isEmpty || left.length = args.length then shown else shown ++ filledAll n format left

/-- Prints its arguments by a format. -/
def printf : Program := fun _ args _ =>
  match args with
  | format :: rest => { output := bytesOf (filledAll (rest.length + 1) format rest) }
  | [] => { status := 2 }

def cat : Program := fun fs args input =>
  if args.isEmpty then { output := input }
  else args.foldl
    (fun (o : Outcome) (name : Text) =>
      if name = "-" then { o with output := o.output ++ input }
      else match fs.read (Path.ofText name) with
        | .ok bytes => { o with output := o.output ++ bytes }
        | .error _ => { o with status := 1 })
    {}

/-- A text without slashes at its end, unless it is nothing else. -/
def trimSlashes (t : Text) : Text :=
  let trimmed := t.dropEnd (· = .scalar '/')
  if trimmed.isEmpty && !t.isEmpty then "/" else trimmed

/-- Prints the directory part of a path. -/
def dirname : Program := fun _ args _ =>
  let t := trimSlashes (args.headD [])
  if t.contains (.scalar '/') then
    prints (trimSlashes (t.dropEnd (· ≠ .scalar '/')))
  else prints "."

/-- Prints the last name of a path, without an ending that is given. -/
def basename : Program := fun _ args _ =>
  let t := trimSlashes (args.headD [])
  let name : Text := if t = "/" then t else (t.reverse.takeWhile (· ≠ .scalar '/')).reverse
  match args with
  | [_, ending] =>
    if name.endsWith ending ∧ name ≠ ending then prints (name.take (name.length - ending.length))
    else prints name
  | _ => prints name

/-- Whether a name fits a pattern with stars and question marks. -/
def fits : Nat → Text → Text → Bool
  | 0, _, _ => false
  | n + 1, pattern, name =>
    match pattern, name with
    | [], [] => true
    | .scalar '*' :: p, [] => fits n p []
    | .scalar '*' :: p, c :: cs => fits n p (c :: cs) || fits n (.scalar '*' :: p) cs
    | .scalar '?' :: p, _ :: cs => fits n p cs
    | a :: p, c :: cs => a = c && fits n p cs
    | _, _ => false

/-- What a search keeps: entries of a type, with a name that fits a pattern. -/
structure Search where
  files : Bool := true
  directories : Bool := true
  pattern : Text := "*"

/-- The search that options ask for. -/
def Search.ofOptions (s : Search) : List Text → Search
  | option :: value :: rest =>
    if option = "-type" then
      ofOptions { s with files := value = "f", directories := value = "d" } rest
    else if option = "-name" then ofOptions { s with pattern := value } rest
    else ofOptions s (value :: rest)
  | _ => s

/-- Whether a search keeps an entry of some name. -/
def Search.keeps (s : Search) (entry : Entry) (name : Text) : Bool :=
  let typed := match entry with
    | .directory => s.directories
    | .file _ _ => s.files
    | .link _ => s.files && s.directories
  typed && fits (s.pattern.length + name.length + 2) s.pattern name

/-- Prints the entries at and below paths that a search keeps. -/
def find : Program := fun fs args _ =>
  let starts := args.takeWhile fun a => !a.startsWith "-"
  let search := Search.ofOptions {} (args.drop starts.length)
  let starts : List Text := if starts.isEmpty then ["."] else starts
  starts.foldl
    (fun (o : Outcome) (start : Text) =>
      match fs.stat (Path.ofText start) with
      | .error _ => { o with status := 1 }
      | .ok (l, top) =>
        let below := fs.entries.filter fun (at_, _) => l.isPrefixOf at_ && at_ != l
        let paths := below.filterMap fun (at_, e) =>
          if search.keeps e (at_.getLastD []) then
            some (start ++ [.scalar '/'] ++ Text.join "/" (at_.drop l.length))
          else none
        let here := if search.keeps top start then [start] else []
        { o with output := o.output ++ bytesOf ((here ++ paths).flatMap lineOf) })
    {}

/-- Prints the names in a directory in order. -/
def ls : Program := fun fs args _ =>
  let places := args.filter fun a => !a.startsWith "-"
  match fs.list (Path.ofText (places.headD ".")) with
  | .ok names =>
    let shown := (names.filter fun n => !n.startsWith ".").mergeSort Text.atMost
    { output := bytesOf (shown.flatMap lineOf) }
  | .error _ =>
    match places with
    | [name] => if fs.isFile (Path.ofText name) then prints name else { status := 2 }
    | _ => { status := 2 }

/-- Prints the lines of its input in order. -/
def sort : Program := fun fs args input =>
  let input := if args.isEmpty then input else (cat fs args input).output
  { output := bytesOf (((linesOf (textOf input)).mergeSort Text.atMost).flatMap lineOf) }

/-- The number that a text spells, with or without a sign. -/
def integerOf? (t : Text) : Option Int :=
  match t with
  | .scalar '-' :: rest => (numberOf? rest).map fun n => -(n : Int)
  | _ => (numberOf? t).map fun n => (n : Int)

/-- Whether two numbers are in a relation. -/
def compares (op : Text) (a b : Int) : Bool :=
  (op = "-eq" && a = b) || (op = "-ne" && a != b) || (op = "-lt" && a < b) || (op = "-le" && a ≤ b)
    || (op = "-gt" && b < a) || (op = "-ge" && b ≤ a)

def holds (fs : FileSystem) : List Text → Bool
  | [] => false
  | first :: rest =>
    if first = "!" ∧ rest ≠ [] then !holds fs rest
    else match rest with
      | [] => !first.isEmpty
      | [value] =>
        let p := Path.ofText value
        if first = "-n" then !value.isEmpty
        else if first = "-z" then value.isEmpty
        else if first = "-f" then fs.isFile p
        else if first = "-d" then fs.isDirectory p
        else if first = "-e" then fs.exists_ p
        else if first = "-r" then fs.exists_ p
        else if first = "-s" then
          match fs.read p with
          | .ok bytes => !bytes.isEmpty
          | .error _ => false
        else false
      | op :: second :: _ =>
        if op = "=" then first = second
        else if op = "!=" then first != second
        else match integerOf? first, integerOf? second with
          | some a, some b => compares op a b
          | _, _ => false

def test : Program := fun fs args _ => { status := if holds fs args then 0 else 1 }

/-- Tests a condition that a bracket closes. -/
def bracket : Program := fun fs args input =>
  if args.getLast? = some "]" then test fs args.dropLast input else { status := 2 }

/-- The programs of the host that need no shell. -/
def programs : List (String × Program) :=
  [("cat", cat), ("echo", echo), ("true", fun _ _ _ => {}), ("false", fun _ _ _ => { status := 1 }),
    ("printf", printf), ("dirname", dirname), ("basename", basename), ("find", find), ("ls", ls),
    ("sort", sort), ("test", test), ("[", bracket)]

/-- The program of a **name**. -/
def program? (name : Text) : Option Program :=
  (programs.find? fun p => Text.ofString p.1 = name).map (·.2)

end ScriptTree.Shell
