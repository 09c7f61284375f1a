import CodeReach.Text.Decimal

namespace CodeReach.Command

inductive Shell where
  | bash
  | elvish
  | fish
  | powershell
  | zsh
deriving DecidableEq

namespace Shell

def name : Shell → String
  | bash => "bash"
  | elvish => "elvish"
  | fish => "fish"
  | powershell => "powershell"
  | zsh => "zsh"

def ofName? (s : String) : Option Shell := [bash, elvish, fish, powershell, zsh].find? (·.name = s)

end Shell

/-- A request to measure roots. -/
structure Request where
  mapFile : String
  listingFile : String
  roots : List String
  tailCalls : Bool
  mnemonics : List String
  limit : Option Nat
  json : Bool
deriving DecidableEq

inductive Action where
  | analyze (r : Request)
  | completions (s : Shell)
deriving DecidableEq

structure Invocation where
  noEmoji : Bool
  action : Option Action
deriving DecidableEq

/-- Where an argument stands: before any command's name or after one. -/
inductive Level where
  | top
  | analyze
  | completions
deriving DecidableEq

inductive Misuse where
  | missingArgument
  | unknownArgument
  | unknownCommand
  | badValue
  | notANumber
  | repeated
  | unwantedValue
deriving DecidableEq

/-- Why a command line is not carried out. -/
inductive Halt where
  | help
  | version (level : Level)
  | misuse (m : Misuse)
deriving DecidableEq

inductive Switch where
  | help
  | version
  | noEmoji
  | tailCalls
  | json
deriving DecidableEq

/-- What takes a value: options by their names, places by their order. -/
inductive Item where
  | limit
  | mnemonic
  | mapFile
  | listingFile
  | root
  | shell
deriving DecidableEq

inductive Named where
  | switch (s : Switch)
  | valued (i : Item)
deriving DecidableEq

def long? (level : Level) (name : String) : Option Named :=
  if name = "help" then some (.switch .help)
  else if name = "version" then some (.switch .version)
  else if name = "no-emoji" then some (.switch .noEmoji)
  else if level = .analyze then
    if name = "tail-calls" then some (.switch .tailCalls)
    else if name = "json" then some (.switch .json)
    else if name = "mnemonic" then some (.valued .mnemonic)
    else if name = "limit" then some (.valued .limit)
    else none
  else none

def short? (level : Level) (letter : Char) : Option Named :=
  if letter = 'h' then some (.switch .help)
  else if letter = 'V' then some (.switch .version)
  else if level = .analyze then
    if letter = 'm' then some (.valued .mnemonic)
    else if letter = 'l' then some (.valued .limit)
    else none
  else none

/-- What the argument at a place stands for; all places from the third on are roots. -/
def place? : Level → Nat → Option Item
  | .analyze, 0 => some .mapFile
  | .analyze, 1 => some .listingFile
  | .analyze, _ => some .root
  | .completions, 0 => some .shell
  | _, _ => none

/-- A count of rows: digits after an optional plus sign, below 2 ^ 64. -/
def count? (text : String) : Option Nat :=
  let digits := match text.toList with
    | '+' :: ds => ds
    | ds => ds
  if !digits.isEmpty && digits.all Text.Decimal.isDigit then
    let n := Text.Decimal.value digits
    if n < UInt64.size then some n else none
  else none

/-- What the arguments have given so far. A value waits until the next argument is recognised, so an
argument that nothing knows is reported before a bad value in front of it; an option may still wait
for its value. -/
structure Reading where
  switches : List Switch
  mapFile : Option String
  listingFile : Option String
  roots : List String
  mnemonics : List String
  limit : Option Nat
  shell : Option Shell
  places : Nat
  waiting : Option (Item × Option String)

namespace Reading

def start : Reading := ⟨[], none, none, [], [], none, none, 0, none⟩

def misused {α : Type} (m : Misuse) : Except Halt α := .error (.misuse m)

/-- Takes up the value of an item. -/
def take (r : Reading) (item : Item) (text : String) : Except Halt Reading :=
  match item with
  | .limit =>
    if r.limit.isSome then misused .repeated
    else
      match count? text with
      | some n => .ok { r with limit := some n }
      | none => misused .notANumber
  | .mnemonic => .ok { r with mnemonics := r.mnemonics ++ [text] }
  | .mapFile => if text = "" then misused .badValue else .ok { r with mapFile := some text }
  | .listingFile => if text = "" then misused .badValue else .ok { r with listingFile := some text }
  | .root => .ok { r with roots := r.roots ++ [text] }
  | .shell =>
    match Shell.ofName? text with
    | some s => .ok { r with shell := some s }
    | none => misused .badValue

/-- Takes up the value that waits. -/
def settle (r : Reading) : Except Halt Reading :=
  match r.waiting with
  | none => .ok r
  | some (_, none) => misused .badValue
  | some (item, some text) => { r with waiting := none }.take item text

def press (r : Reading) (level : Level) (s : Switch) : Except Halt Reading :=
  match s with
  | .help => .error .help
  | .version => .error (.version level)
  | s => if s ∈ r.switches then misused .repeated else .ok { r with switches := s :: r.switches }

/-- A switch or an option has been recognised, with the value written right at it, if any. -/
def meet (r : Reading) (level : Level) (n : Named) (value : Option String) :
    Except Halt Reading :=
  match n, value with
  | .switch _, some _ => misused .unwantedValue
  | .switch s, none => r.settle.bind (·.press level s)
  | .valued item, some text => r.settle.bind (·.take item text)
  | .valued item, none => r.settle.map fun r => { r with waiting := some (item, none) }

/-- Name and value of an argument with an equals sign. -/
def splitValue (cs : List Char) : String × Option String :=
  match cs.dropWhile (· != '=') with
  | [] => (String.ofList cs, none)
  | _ :: value => (String.ofList (cs.takeWhile (· != '=')), some (String.ofList value))

def readLong (r : Reading) (level : Level) (cs : List Char) : Except Halt Reading :=
  let (name, value) := splitValue cs
  match long? level name with
  | none => misused .unknownArgument
  | some n => r.meet level n value

/-- The value that follows an option's letter, with or without an equals sign. -/
def attached : List Char → Option String
  | [] => none
  | '=' :: value => some (String.ofList value)
  | value => some (String.ofList value)

/-- Letters of switches may stand together; what follows an option's letter is its value. -/
def readShort (r : Reading) (level : Level) : List Char → Except Halt Reading
  | [] => .ok r
  | letter :: rest =>
    match short? level letter with
    | none => misused .unknownArgument
    | some (.switch s) =>
      match r.meet level (.switch s) none with
      | .ok r => readShort r level rest
      | .error h => .error h
    | some (.valued item) => r.meet level (.valued item) (attached rest)

/-- An argument that no option takes. -/
def readPlace (r : Reading) (level : Level) (text : String) : Except Halt Reading :=
  match place? level r.places with
  | none => misused (if level = .top then .unknownCommand else .unknownArgument)
  | some item =>
    r.settle.map fun r => { r with places := r.places + 1, waiting := some (item, some text) }

def readPlain (r : Reading) (level : Level) (text : String) : Except Halt Reading :=
  match r.waiting with
  | some (item, none) => .ok { r with waiting := some (item, some text) }
  | _ => r.readPlace level text

/-- Reads one argument before a lone double dash. -/
def read (r : Reading) (level : Level) (text : String) : Except Halt Reading :=
  match text.toList with
  | '-' :: '-' :: cs => r.readLong level cs
  | '-' :: c :: cs => r.readShort level (c :: cs)
  | _ => r.readPlain level text

/-- After a lone double dash no argument is an option. -/
def readPlaces (r : Reading) (level : Level) : List String → Except Halt Reading
  | [] => .ok r
  | text :: rest =>
    match r.readPlace level text with
    | .ok r => readPlaces r level rest
    | .error h => .error h

def readAll (r : Reading) (level : Level) : List String → Except Halt Reading
  | [] => .ok r
  | text :: rest =>
    if text = "--" then r.readPlaces level rest
    else
      match r.read level text with
      | .ok r => readAll r level rest
      | .error h => .error h

def hasSwitch (r : Reading) (s : Switch) : Bool := decide (s ∈ r.switches)

def request (r : Reading) : Except Halt Request :=
  match r.mapFile, r.listingFile with
  | some mapFile, some listingFile =>
    if r.roots.isEmpty then misused .missingArgument
    else
      .ok {
        mapFile := mapFile
        listingFile := listingFile
        roots := r.roots
        tailCalls := r.hasSwitch .tailCalls
        mnemonics := r.mnemonics
        limit := r.limit
        json := r.hasSwitch .json }
  | _, _ => misused .missingArgument

end Reading

/-- The arguments after a command's name. -/
def readCommand (level : Level) (args : List String) : Except Halt Reading :=
  (Reading.start.readAll level args).bind Reading.settle

def readAnalyze (noEmoji : Bool) (args : List String) : Except Halt Invocation := do
  let r ← readCommand .analyze args
  let request ← r.request
  .ok ⟨noEmoji || r.hasSwitch .noEmoji, some (.analyze request)⟩

def readCompletions (noEmoji : Bool) (args : List String) : Except Halt Invocation := do
  let r ← readCommand .completions args
  match r.shell with
  | some s => .ok ⟨noEmoji || r.hasSwitch .noEmoji, some (.completions s)⟩
  | none => .error (.misuse .missingArgument)

/-- Help may be asked for a command by its name. -/
def readHelp : List String → Halt
  | [] => .help
  | [name] =>
    if name = "analyze" ∨ name = "completions" ∨ name = "help" then .help
    else .misuse .unknownCommand
  | _ => .misuse .unknownCommand

def isCommandName (text : String) : Bool :=
  text = "analyze" ∨ text = "completions" ∨ text = "help"

/-- After a lone double dash there is no command; its name would be one without the dashes. -/
def readTopPlaces (r : Reading) : List String → Except Halt Invocation
  | [] => .ok ⟨r.hasSwitch .noEmoji, none⟩
  | text :: _ =>
    .error (.misuse (if isCommandName text then .unknownArgument else .unknownCommand))

def readTop (r : Reading) : List String → Except Halt Invocation
  | [] => .ok ⟨r.hasSwitch .noEmoji, none⟩
  | text :: rest =>
    if text = "analyze" then readAnalyze (r.hasSwitch .noEmoji) rest
    else if text = "completions" then readCompletions (r.hasSwitch .noEmoji) rest
    else if text = "help" then .error (readHelp rest)
    else if text = "--" then readTopPlaces r rest
    else
      match r.read .top text with
      | .ok r => readTop r rest
      | .error h => .error h

def Invocation.parse (args : List String) : Except Halt Invocation := readTop .start args

end CodeReach.Command
