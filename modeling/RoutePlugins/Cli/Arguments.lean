import RoutePlugins.Text.Digit
import RoutePlugins.Text.Quoted
import RoutePlugins.Text.Search

/-!
# Command-line arguments

How a line of arguments is taken apart into options, values and words. An option may be shortened as
long as it stays unambiguous, a value may follow its option or an equals sign, and everything after
a lone double dash is a word.
-/

namespace RoutePlugins.Cli

/-- What an option takes. -/
inductive OptionKind where
  /-- Nothing; the option asks for help. -/
  | help
  /-- Nothing. -/
  | flag
  /-- One value, out of some choices if there are any. -/
  | value (choices : List Text)
  deriving DecidableEq

/-- An option of a command, by its names; the last is its own. -/
structure OptionSpec where
  names : List Text
  kind : OptionKind
  deriving DecidableEq

namespace OptionSpec

/-- The name under which settings of the option are kept. -/
def key (o : OptionSpec) : Text := o.names.getLastD ""

/-- The name of the option in messages. -/
def shown (o : OptionSpec) : Text := Text.joinWith "/" o.names

end OptionSpec

/-- The words that a command takes, apart from the name of a subcommand. -/
inductive WordKind where
  | none
  /-- One word or more, by their name in messages. -/
  | some (name : Text)

/-- What a command takes, and its texts. -/
structure CommandSpec where
  program : Text
  usage : Text
  /-- The help after the usage line. -/
  details : Text
  options : List OptionSpec
  words : WordKind

/-- Why arguments end a program early. -/
inductive Halt where
  | help (text : Text)
  | misuse (text : Text)

/-- What a line of arguments sets. -/
structure Settings where
  /-- The options given, in order, with their values. A double dash that is assigned to an option
  gives it none. -/
  options : List (Text × Option Text)
  words : List Text
  /-- Arguments that the command does not know. -/
  unknown : List Text

namespace CommandSpec

/-- The help of a command. -/
def help (c : CommandSpec) : Text := c.usage ++ "\n\n" ++ c.details

/-- The text for a misused command. -/
def misuse (c : CommandSpec) (message : Text) : Halt :=
  .misuse (c.usage ++ "\n" ++ c.program ++ ": error: " ++ message ++ "\n")

/-- The text for a misused option or word. -/
def misuseOf (c : CommandSpec) (name message : Text) : Halt :=
  c.misuse ("argument " ++ name ++ ": " ++ message)

/-- The options by name. -/
def named (c : CommandSpec) : List (Text × OptionSpec) :=
  c.options.flatMap fun o => o.names.map fun name => (name, o)

end CommandSpec

/-- The value that is written into the same argument as its option. -/
inductive Attached where
  | none
  /-- After an equals sign. -/
  | assigned (text : Text)
  /-- Right after a one-letter option. -/
  | joined (text : Text)

/-- What an argument is taken for. -/
inductive Token where
  | word (text : Text)
  | doubleDash
  | option (spec : OptionSpec) (name : Text) (attached : Attached)
  | unknown (text : Text)

/-- Whether a text is a negative number: a dash and digits, with a point before the last of them if
there is one. A final line break does not count. -/
def isNegativeNumber (text : Text) : Bool :=
  let isDecimal (p : CodePoint) : Bool := (Text.decimalValue? p).isSome
  match text.points with
  | .char '-' :: number =>
    let number := if number.getLast? == some (.char '\n') then number.dropLast else number
    match number.dropWhile isDecimal with
    | [] => !number.isEmpty
    | .char '.' :: fraction => !fraction.isEmpty && fraction.all isDecimal
    | _ => false
  | _ => false

/-- The options that a shortened or joined option can stand for. -/
def expansions (c : CommandSpec) (text : Text) : List (Text × Token) :=
  if text.startsWith "--" then
    let (front, attached) := match text.cut? '=' with
      | some (front, value) => (front, Attached.assigned value)
      | none => (text, .none)
    c.named.filterMap fun (name, o) =>
      if name.startsWith front then some (name, .option o name attached) else none
  else
    c.named.filterMap fun (name, o) =>
      if name == text.take 2 then some (name, .option o name (.joined (text.drop 2)))
      else if name.startsWith text then some (name, .option o name .none)
      else none

/-- The option that an argument assigns to. -/
def assignment? (c : CommandSpec) (text : Text) : Option Token := do
  let (name, value) ← text.cut? '='
  let o ← (c.named.find? (·.1 == name)).map Prod.snd
  return .option o name (.assigned value)

/-- What an argument that starts with a dash is taken for. -/
def dashToken (c : CommandSpec) (arg : Text) : Except Halt Token :=
  match c.named.find? (·.1 == arg) with
  | some (name, o) => .ok (.option o name .none)
  | none =>
    if arg.length == 1 then .ok (.word arg)
    else
      match assignment? c arg with
      | some token => .ok token
      | none =>
        match expansions c arg with
        | [(_, token)] => .ok token
        | [] =>
          if isNegativeNumber arg || arg.contains ' ' then .ok (.word arg)
          else .ok (.unknown arg)
        | several => .error (c.misuse ("ambiguous option: " ++ arg ++ " could match " ++
            Text.joinWith ", " (several.map Prod.fst)))

/-- What the arguments of a command are taken for. -/
def tokens (c : CommandSpec) : List Text → Except Halt (List Token)
  | [] => .ok []
  | arg :: rest =>
    if arg == "--" then .ok (.doubleDash :: rest.map .word)
    else do
      let token ← if arg.startsWith "-" then dashToken c arg else pure (.word arg)
      return token :: (← tokens c rest)

/-- The text that a one-letter option is given although it takes none. Letters joined to it are
options of their own as far as there are such. One-letter options all ask for help, so of what is
joined to one only a refused text matters. -/
def joinedRest (c : CommandSpec) : List CodePoint → Option Text
  | [] => none
  | p :: ps =>
    if c.named.any (·.1 == ⟨[.char '-', p]⟩) then joinedRest c ps else some ⟨p :: ps⟩

/-- The text that a flag is given although it takes none. To a one-letter option letters may be
joined, with or without an equals sign. -/
def refusedText (c : CommandSpec) (name : Text) : Attached → Option Text
  | .none => none
  | .assigned text | .joined text =>
    if name.length == 2 && !text.isEmpty then joinedRest c text.points else some text

/-- Whether words have been taken. -/
inductive WordState where
  | pending
  | taking
  | taken

/-- The settings so far. -/
structure Progress where
  settings : Settings
  state : WordState

namespace Progress

/-- Set an option. -/
def set (p : Progress) (key : Text) (value : Option Text) : Progress :=
  { p with settings := { p.settings with options := p.settings.options ++ [(key, value)] } }

/-- Leave an argument aside. -/
def leave (p : Progress) (text : Text) : Progress :=
  { p with settings := { p.settings with unknown := p.settings.unknown ++ [text] } }

/-- Take a word. -/
def take (p : Progress) (text : Text) : Progress :=
  { p with
    settings := { p.settings with words := p.settings.words ++ [text] }
    state := .taking }

/-- Take no more words once an option follows them. -/
def closeWords (p : Progress) : Progress :=
  match p.state with
  | .taking => { p with state := .taken }
  | _ => p

end Progress

/-- Set an option to a value, if that is one of its choices. A double dash sets it to nothing. -/
def setValue (c : CommandSpec) (o : OptionSpec) (choices : List Text) (text : Text)
    (p : Progress) : Except Halt Progress :=
  if text == "--" then .ok (p.set o.key none)
  else if choices.isEmpty || choices.contains text then .ok (p.set o.key (some text))
  else .error (c.misuseOf o.shown ("invalid choice: " ++ Text.quoted text ++ " (choose from " ++
    Text.joinWith ", " (choices.map Text.quoted) ++ ")"))

/-- Set an option that takes no value. -/
def setFlag (c : CommandSpec) (o : OptionSpec) (name : Text) (attached : Attached)
    (p : Progress) : Except Halt Progress :=
  match refusedText c name attached with
  | some text =>
    .error (c.misuseOf o.shown ("ignored explicit argument " ++ Text.quoted text))
  | none =>
    match o.kind with
    | .help => .error (.help c.help)
    | _ => .ok (p.set o.key none)

/-- The value in the argument of an option itself. -/
def Attached.value? : Attached → Option Text
  | .none => Option.none
  | .assigned text | .joined text => some text

/-- Take a word, or leave it aside. -/
def placeWord (c : CommandSpec) (text : Text) (p : Progress) : Progress :=
  match c.words, p.state with
  | .none, _ | _, .taken => p.leave text
  | _, _ => p.take text

/-- Work through tokens. A double dash is taken with the words around it. -/
def work (c : CommandSpec) : List Token → Progress → Except Halt Progress
  | [], p => .ok p
  | .unknown text :: rest, p => work c rest (p.closeWords.leave text)
  | .doubleDash :: rest, p =>
    match rest, p.state with
    | [], .pending => .ok (p.leave "--")
    | _, _ => work c rest (placeWord c "--" p)
  | .word text :: rest, p => work c rest (placeWord c text p)
  | .option o name attached :: rest, p =>
    match o.kind with
    | .value choices =>
      match attached.value?, rest with
      | some text, rest => do work c rest (← setValue c o choices text p.closeWords)
      | none, .word text :: rest => do work c rest (← setValue c o choices text p.closeWords)
      | none, _ => .error (c.misuseOf o.shown "expected one argument")
    | _ => do work c rest (← setFlag c o name attached p.closeWords)

/-- Remove the first double dash from words. -/
def withoutDash (words : List Text) : List Text := words.erase "--"

/-- The settings of a command without subcommands. -/
def parse (c : CommandSpec) (args : List Text) : Except Halt Settings := do
  let p ← work c (← tokens c args) ⟨⟨[], [], []⟩, .pending⟩
  match c.words, p.state with
  | .some name, .pending => throw (c.misuse ("the following arguments are required: " ++ name))
  | _, _ => return { p.settings with words := withoutDash p.settings.words }

/-- What is in front of a subcommand. -/
structure Front where
  settings : Settings
  /-- The subcommand with its arguments. -/
  subcommand : Option (Text × List Text)

/-- Split the arguments of a command with subcommands: its own options, and from the first word on
what belongs to the subcommand. -/
def front (c : CommandSpec) (name : Text) (choices : List Text) :
    List (Token × Text) → Progress → Except Halt Front
  | [], p => .ok ⟨p.settings, none⟩
  | (.unknown text, _) :: rest, p => front c name choices rest (p.leave text)
  | (.doubleDash, _) :: [], p => .ok ⟨(p.leave "--").settings, none⟩
  | (.doubleDash, text) :: rest, p | (.word text, _) :: rest, p =>
    if choices.contains text then .ok ⟨p.settings, some (text, rest.map Prod.snd)⟩
    else .error (c.misuseOf name ("invalid choice: " ++ Text.quoted text ++ " (choose from " ++
      Text.joinWith ", " (choices.map Text.quoted) ++ ")"))
  | (.option o optionName attached, _) :: rest, p =>
    match o.kind with
    | .value values =>
      match attached.value?, rest with
      | some text, rest => do front c name choices rest (← setValue c o values text p)
      | none, (.word text, _) :: rest => do front c name choices rest (← setValue c o values text p)
      | none, _ => .error (c.misuseOf o.shown "expected one argument")
    | _ => do front c name choices rest (← setFlag c o optionName attached p)

/-- The settings of a command with subcommands. -/
def parseFront (c : CommandSpec) (name : Text) (choices : List Text) (args : List Text) :
    Except Halt Front := do
  let found ← tokens c args
  front c name choices (found.zip args) ⟨⟨[], [], []⟩, .pending⟩

end RoutePlugins.Cli
