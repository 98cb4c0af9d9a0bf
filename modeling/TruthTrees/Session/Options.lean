import TruthTrees.Text.Style

/-!
# Command lines

The words of a command line are read from left to right. `--help` and `--version` take effect when
they are met, and the first word that has no place ends the reading.
-/

namespace TruthTrees

structure Options where
  /-- Stop once the tree has this many nodes. -/
  limit : Option Nat := none
  style : Style := .polish
  showTree : Bool := true
  /-- Write the tree to this file. -/
  treeFile : Option String := none
  /-- Write the statistics to this file. -/
  statsFile : Option String := none
  /-- Read the argument from this file. -/
  argumentFile : Option String := none
  deriving DecidableEq

inductive Command where
  | help
  | version
  | prove (options : Options)
  deriving DecidableEq

namespace Options

/-- The options that take a value. -/
inductive Slot where
  | limit
  | treeFile
  | statsFile
  | argumentFile
  deriving DecidableEq

/-- A number of nodes: decimal digits, with or without a plus sign, that fit into 64 bits. -/
def limitOf? (text : List Char) : Option Nat :=
  let digits := match text with
    | '+' :: digits => digits
    | digits => digits
  if digits.isEmpty || !digits.all Char.isDigit then none
  else
    let n := Nat.ofDigitChars 10 digits 0
    if n < UInt64.size then some n else none

def fileName? (text : String) : Option String :=
  if text.isEmpty then none else some text

/-- Fill a slot. Every slot is filled once. -/
def fill (o : Options) (value : String) : Slot → Option Options
  | .limit => if o.limit.isSome then none else
      (limitOf? value.toList).map fun n => { o with limit := some n }
  | .treeFile => if o.treeFile.isSome then none else
      (fileName? value).map fun file => { o with treeFile := some file }
  | .statsFile => if o.statsFile.isSome then none else
      (fileName? value).map fun file => { o with statsFile := some file }
  | .argumentFile => if o.argumentFile.isSome then none else
      (fileName? value).map fun file => { o with argumentFile := some file }

def setBracketed (o : Options) : Option Options :=
  if o.style = .bracketed then none else some { o with style := .bracketed }

def setNoTree (o : Options) : Option Options :=
  if o.showTree then some { o with showTree := false } else none

end Options

/-- The meaning of a word that stands where an option may stand. -/
inductive Word where
  | help
  | version
  | bracketed
  | noTree
  /-- An option whose value is the next word. -/
  | slot (slot : Options.Slot)
  /-- An option together with its value. -/
  | filled (slot : Options.Slot) (value : String)
  /-- No options follow. -/
  | endOfOptions
  | unknown
  deriving DecidableEq

namespace Word

/-- A long option, its name and value being divided by an equals sign. -/
def ofLong (text : List Char) : Word :=
  let name := String.ofList (text.takeWhile (· ≠ '='))
  match text.dropWhile (· ≠ '=') with
  | [] =>
    match name with
    | "help" => help
    | "version" => version
    | "infix" => bracketed
    | "no-tree" => noTree
    | "limit" => slot .limit
    | "stats" => slot .statsFile
    | _ => unknown
  | _ :: value =>
    match name with
    | "limit" => filled .limit (String.ofList value)
    | "stats" => filled .statsFile (String.ofList value)
    | _ => unknown

/-- A short option, whose value may follow at once or after an equals sign. -/
def ofShort : List Char → Word
  | 'h' :: _ => help
  | 'V' :: _ => version
  | ['o'] => slot .treeFile
  | 'o' :: '=' :: value => filled .treeFile (String.ofList value)
  | 'o' :: value => filled .treeFile (String.ofList value)
  | _ => unknown

def ofString (word : String) : Word :=
  match word.toList with
  | ['-', '-'] => endOfOptions
  | '-' :: '-' :: text => ofLong text
  | '-' :: c :: text => ofShort (c :: text)
  | _ => filled .argumentFile word

end Word

/-- Does a word start like an option? A single dash does not. -/
def looksLikeOption (word : String) : Bool :=
  match word.toList with
  | '-' :: _ :: _ => true
  | _ => false

inductive Expected where
  | anything
  | value (slot : Options.Slot)
  | onlyFiles

def Command.readFrom (o : Options) : Expected → List String → Option Command
  | .value _, [] => none
  | _, [] => some (.prove o)
  | .onlyFiles, word :: words => do
    Command.readFrom (← o.fill word .argumentFile) .onlyFiles words
  | .value slot, word :: words =>
    if looksLikeOption word then none
    else do Command.readFrom (← o.fill word slot) .anything words
  | .anything, word :: words =>
    match Word.ofString word with
    | .help => some .help
    | .version => some .version
    | .bracketed => do Command.readFrom (← o.setBracketed) .anything words
    | .noTree => do Command.readFrom (← o.setNoTree) .anything words
    | .slot slot => Command.readFrom o (.value slot) words
    | .filled slot value => do Command.readFrom (← o.fill value slot) .anything words
    | .endOfOptions => Command.readFrom o .onlyFiles words
    | .unknown => none

/-- Read a command line. There is no command if a word has no place in it. -/
def Command.read (words : List String) : Option Command :=
  Command.readFrom {} .anything words

def Command.versionText : String :=
  "tabprove 0.1.0\n"

def Command.usage : String :=
  "Decide first-order arguments by proof trees\n\n" ++
    "Usage: tabprove [OPTIONS] [FILE]\n\n" ++
    "  [FILE]         argument, one formula per line, the conclusion coming last\n" ++
    "  --limit <N>    stop once the tree has this many nodes\n" ++
    "  --infix        show formulae of the tree in infix notation\n" ++
    "  --no-tree      do not show the proof tree\n" ++
    "  -o <FILE>      write the proof tree to this file\n" ++
    "  --stats <FILE> write statistics in JSON format to this file\n" ++
    "  -h, --help     show this text\n" ++
    "  -V, --version  show the version\n"

end TruthTrees
