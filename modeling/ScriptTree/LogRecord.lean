import ScriptTree.Json.Writer

/-!
# Log records

A **log record** is written as one line of JSON with a numbered level and the time in thousandths of
a second.
-/

namespace ScriptTree

/-- A fault that is logged: its type and its text, where known. -/
structure LoggedFault where
  type : Option Text
  text : Option Text

structure LogRecord where
  level : Text
  time : Double
  message : Text
  process : Int
  extra : List (Text × Json)
  fault : Option LoggedFault

namespace LogRecord

def levelNumber (level : Text) : Nat :=
  (([("TRACE", 10), ("DEBUG", 20), ("INFO", 30), ("SUCCESS", 30), ("WARNING", 40), ("ERROR", 50),
    ("CRITICAL", 60)] : List (String × Nat)).find? (fun l => Text.ofString l.1 = level)).elim 30
    (·.2)

/-- A field as it is logged: plain values stay, others are shown as text. -/
def loggedValue : Json → Json
  | .string t => .string t
  | .bool b => .bool b
  | .number n => .number n
  | other => .string other.display

def faultValue (fault : LoggedFault) : Json :=
  .object [("type", .string (fault.type.getD "Error")), ("message", .string (fault.text.getD []))]

def fields (r : LogRecord) : List (Text × Json) :=
  let millis := ((r.time.scale 1000).truncate?).getD 0
  let base : List (Text × Json) :=
    [("level", .number (.integer (levelNumber r.level))), ("time", .number (.integer millis)),
      ("msg", .string r.message), ("pid", .number (.integer r.process)), ("name", .string "xnr")]
  let all := r.extra.foldl (fun fs f => Json.insertField f.1 (loggedValue f.2) fs) base
  match r.fault with
  | some fault => Json.insertField "err" (faultValue fault) all
  | none => all

def line (r : LogRecord) : Text := (Json.object r.fields).render ++ [.scalar '\n']

end LogRecord

end ScriptTree
