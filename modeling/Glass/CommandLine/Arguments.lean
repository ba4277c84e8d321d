import Glass.Text.Printable

/-!
Command lines. Every argument is first told apart on its own, as an option, a file name or the
separator behind which all arguments are file names; then the arguments are obeyed in order. Long
options can be cut short, short ones can be joined, and there is room for one file name.
-/

namespace Glass.CommandLine

inductive Switch where
  | help | debug | verbose | version
  deriving DecidableEq, Repr

/-- All spellings of options, in the order in which messages list them. -/
def optionSpellings : List (String × Switch) :=
  [("-h", .help), ("--help", .help), ("-d", .debug), ("--debug", .debug), ("-v", .verbose),
    ("--verbose", .verbose), ("--version", .version)]

/-- A switch as messages call it. -/
def Switch.names (switch : Switch) : String :=
  "/".intercalate
    ((optionSpellings.filter fun (_, other) => other == switch).map fun (spelling, _) => spelling)

inductive ArgumentError where
  | ambiguous (argument : String) (spellings : List String)
  | ignoredValue (switch : Switch) (value : String)
  | unrecognized (arguments : List String)

def ArgumentError.message : ArgumentError → String
  | .ambiguous argument spellings =>
      let choices := ", ".intercalate spellings
      s!"ambiguous option: {argument} could match {choices}"
  | .ignoredValue switch value =>
      s!"argument {switch.names}: ignored explicit argument {logQuote value}"
  | .unrecognized arguments => "unrecognized arguments: " ++ " ".intercalate arguments

/-- An argument, told apart without regard to the others. -/
inductive Argument where
  | file (name : String)
  | separator
  | switch (switch : Switch)
  /-- A switch with a value, which no switch takes. -/
  | valued (switch : Switch) (value : String)
  /-- A switch in a short spelling with more behind it. -/
  | joined (switch : Switch) (more : List Char)
  | unknown (text : String)

/-- A switch with a text behind an equals sign. Behind a short spelling the text is read as if the
equals sign were not there, unless it is empty. -/
def Argument.withText (spelling : List Char) (switch : Switch) (text : List Char) : Argument :=
  if spelling.length = 2 && !text.isEmpty then .joined switch text
  else .valued switch (String.ofList text)

/-- A minus and digits, with at most one point that has a digit behind it. One line feed may follow. -/
def looksNegative (text : List Char) : Bool :=
  match text with
  | '-' :: rest =>
      let body := if rest.getLast? = some '\n' then rest.dropLast else rest
      let isDigit (c : Char) : Bool := (decimalDigit? c).isSome
      let behind := body.dropWhile isDigit
      match behind with
      | [] => !body.isEmpty
      | '.' :: places => !places.isEmpty && places.all isDigit
      | _ => false
  | _ => false

/-- The part of an argument before the first equals sign, and the text behind that sign. -/
def splitAtEquals (text : List Char) : List Char × Option (List Char) :=
  match text.dropWhile (· != '=') with
  | [] => (text, none)
  | _ :: value => (text.takeWhile (· != '='), some value)

/-- What an argument may be short for. -/
def abbreviated (text : List Char) : List (String × Argument) :=
  match text with
  | '-' :: '-' :: _ =>
      let (name, value?) := splitAtEquals text
      (optionSpellings.filter fun (spelling, _) => name.isPrefixOf spelling.toList).map
        fun (spelling, switch) =>
          (spelling,
            match value? with
            | none => .switch switch
            | some value => .withText spelling.toList switch value)
  | first :: second :: more =>
      (optionSpellings.filter fun (spelling, _) => spelling.toList == [first, second]).map
        fun (spelling, switch) => (spelling, .joined switch more)
  | _ => []

/-- The switch that an argument spells in full, with what it has behind an equals sign. -/
def spelledOut? (text : List Char) : Option Argument :=
  let (name, value?) := splitAtEquals text
  (List.lookup (String.ofList name) optionSpellings).map fun switch =>
    match value? with
    | none => .switch switch
    | some value => .withText name switch value

/-- Tell an argument before the separator apart. -/
def Argument.classify (argument : String) : Except ArgumentError Argument :=
  let text := argument.toList
  if text.head? ≠ some '-' || text.length = 1 then .ok (.file argument)
  else
    match spelledOut? text with
    | some found => .ok found
    | none =>
        match abbreviated text with
        | [(_, found)] => .ok found
        | [] =>
            if looksNegative text || text.contains ' ' then .ok (.file argument)
            else .ok (.unknown argument)
        | found => .error (.ambiguous argument (found.map fun (spelling, _) => spelling))

/-- Tell all arguments apart. -/
def Argument.classifyAll : List String → Except ArgumentError (List Argument)
  | [] => .ok []
  | "--" :: rest => .ok (.separator :: rest.map .file)
  | argument :: rest => do
      let first ← Argument.classify argument
      let others ← Argument.classifyAll rest
      return first :: others

/-- The switches that short spellings joined in one argument give. The first character that spells
none makes all from there on a value of the switch before it, which that does not take. -/
def joinedSwitches (switch : Switch) : (more : List Char) → Except ArgumentError (List Switch)
  | [] => .ok [switch]
  | c :: rest =>
      match List.lookup (String.ofList ['-', c]) optionSpellings with
      | none => .error (.ignoredValue switch (String.ofList (c :: rest)))
      | some next => (joinedSwitches next rest).map (switch :: ·)

/-- The room for the file name. -/
inductive FileSlot where
  | empty
  /-- The separator came first: the next argument is the file name. -/
  | opened
  /-- Filled; `fresh` tells that nothing has followed, so that the separator still belongs here. -/
  | filled (name : String) (fresh : Bool)

def FileSlot.name? : FileSlot → Option String
  | .filled name _ => some name
  | _ => none

def FileSlot.settled : FileSlot → FileSlot
  | .filled name _ => .filled name false
  | slot => slot

structure Options where
  debug : Bool := false
  verbose : Bool := false
  file : Option String := none

/-- What a command line asks for. -/
inductive Command where
  | showHelp
  | showVersion
  | execute (options : Options)
  | refuse (error : ArgumentError)

structure ArgumentState where
  debug : Bool := false
  verbose : Bool := false
  slot : FileSlot := .empty
  /-- The arguments that have no meaning, in order. -/
  extra : List String := []

namespace ArgumentState

/-- Obey switches in order, up to one that ends everything. -/
def obey (s : ArgumentState) : List Switch → Except Command ArgumentState
  | [] => .ok s
  | .help :: _ => .error .showHelp
  | .version :: _ => .error .showVersion
  | .debug :: rest => { s with debug := true }.obey rest
  | .verbose :: rest => { s with verbose := true }.obey rest

def addExtra (s : ArgumentState) (text : String) : ArgumentState :=
  { s with extra := s.extra ++ [text] }

def settle (s : ArgumentState) : ArgumentState := { s with slot := s.slot.settled }

def step (s : ArgumentState) : Argument → Except Command ArgumentState
  | .file name =>
      match s.slot with
      | .empty => .ok { s with slot := .filled name true }
      | .opened => .ok { s with slot := .filled name false }
      | .filled _ _ => .ok (s.settle.addExtra name)
  | .separator =>
      match s.slot with
      | .empty | .opened => .ok { s with slot := .opened }
      | .filled _ true => .ok s.settle
      | .filled _ false => .ok (s.addExtra "--")
  | .switch switch => s.settle.obey [switch]
  | .valued switch value => .error (.refuse (.ignoredValue switch value))
  | .joined switch more =>
      match joinedSwitches switch more with
      | .error error => .error (.refuse error)
      | .ok switches => s.settle.obey switches
  | .unknown text => .ok (s.settle.addExtra text)

def finish (s : ArgumentState) : Command :=
  if s.extra.isEmpty then
    .execute { debug := s.debug, verbose := s.verbose, file := s.slot.name? }
  else .refuse (.unrecognized s.extra)

end ArgumentState

def Command.ofArguments (arguments : List String) : Command :=
  match Argument.classifyAll arguments with
  | .error error => .refuse error
  | .ok told =>
      match told.foldlM ArgumentState.step {} with
      | .ok s => s.finish
      | .error command => command

def usage : String := "usage: glass [-h] [-d] [-v] [--version] [file]\n"

def helpText : String :=
  usage ++ "\n" ++
    "Run a Glass script\n\n" ++
    "positional arguments:\n" ++
    "  file           The script file to run ('-' reads stdin)\n\n" ++
    "options:\n" ++
    "  -h, --help     show this help message and exit\n" ++
    "  -d, --debug    Enable debug mode\n" ++
    "  -v, --verbose  Enable verbose mode\n" ++
    "  --version      show program's version number and exit\n"

end Glass.CommandLine
