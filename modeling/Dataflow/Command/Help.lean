import Dataflow.Command.Arguments

/-!
# Help

What the program says about itself and its commands. A list has two columns; what is said about an
option stands below it instead if the first column leaves too little room for some of them.
-/

namespace Dataflow.Command

/-! ## Layout -/

def lineWidth : Nat := 100

def spaces (n : Nat) : String := String.ofList (List.replicate n ' ')

/-- An entry with what is said about it in a column behind the width of the first one. -/
def entry (width : Nat) (title about : String) : String :=
  "  " ++ title ++ spaces (width + 2 - title.length) ++ about

def Switch.call (s : Switch) : String :=
  "--" ++ s.name ++ if s.accepts.isSome then s!" <{s.valueName}>" else ""

/-- An option in the first column; those without a letter leave its place empty. -/
def Switch.title (s : Switch) : String :=
  (match s.letter with
    | some c => String.ofList ['-', c, ',', ' ']
    | none => spaces 4) ++ s.call

/-- Whether something said about the options has no room in a line of its own behind a first column
of the given width, which takes up a good part of it. -/
def isCramped (width : Nat) (switches : List Switch) : Bool :=
  let taken := width + 12
  lineWidth * 2 < taken * 5 && switches.any fun s => lineWidth < taken + s.about.length

/-- A list of options. -/
def switchLines (switches : List Switch) : List String :=
  let width := (switches.map fun s => s.title.length).foldl Nat.max 0
  switches.map fun s =>
    if isCramped width switches then "  " ++ s.title ++ "\n" ++ spaces 10 ++ s.about
    else entry width s.title s.about

/-! ## Texts -/

def helpSwitch : Switch := { name := "help", letter := some 'h', about := "Print help" }

def versionSwitch : Switch := { name := "version", letter := some 'V', about := "Print version" }

/-- The command words, and what they do. -/
def words : List (String × String) := [
  ("validate", "Parse a script and validate the resulting plan"),
  ("explain", "Print the plan in dependency order with schemas"),
  ("optimize", "Optimize a script's plan and report which rules fired"),
  ("run", "Execute a script on the local engine over JSON-lines inputs"),
  ("help", "Print this message or the help of the given subcommand(s)")]

/-- What the program does, how it is called, and its commands. -/
def programHelp : String :=
  let width := (words.map fun (word, _) => word.length).foldl Nat.max 0
  String.intercalate "\n" (
    ["Rule-based optimizer for dataflow logical plans", "", "Usage: flowplan <COMMAND>", "",
      "Commands:"] ++ words.map (fun (word, about) => entry width word about) ++
    ["", "Options:"] ++ switchLines [helpSwitch, versionSwitch] ++ [""])

/-- What is said about the command that prints help. -/
def helpHelp (about : String) : String := String.intercalate "\n" [
  about, "", "Usage: flowplan help [COMMAND]...", "", "Arguments:",
  "  [COMMAND]...  Print help for the subcommand(s)", ""]

/-- What a command does, how it is called, and its options. -/
def commandHelp (word : String) : String :=
  let about := (words.lookup word).getD ""
  match switches? word with
  | none => helpHelp about
  | some switches =>
    let optional := if switches.length = 1 then "" else "[OPTIONS] "
    String.intercalate "\n" (
      [about, "", s!"Usage: flowplan {word} {optional}{scriptSwitch.call}", "", "Options:"] ++
        switchLines (switches ++ [helpSwitch]) ++ [""])

/-- What is said about a command word, or about the program. -/
def helpText : Option String → String
  | some word => commandHelp word
  | none => programHelp

def versionText : String := "flowplan 0.1.0\n"

end Dataflow.Command
