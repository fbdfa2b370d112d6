import RoutePlugins.Json.Reader
import RoutePlugins.Value.Display

/-!
# Faults

Why an operation fails. Each cause has its data, and its words are in one place, `Fault.message`.
A fault also has a label, the name of its class, which reports put in front of the message.
-/

namespace RoutePlugins

/-- Why a value cannot be kept. -/
inductive NotJson where
  /-- It, or something in it, has no JSON form. -/
  | kind (kindName : Text)
  /-- A number in it is not finite. -/
  | outOfRange
  /-- A whole number in it has too many digits. -/
  | digits
  /-- Something in it lies too deep to be looked at, as in a value that holds itself. -/
  | depth
  deriving DecidableEq, Repr

/-- The words for a value that cannot be kept. -/
def NotJson.message : NotJson → Text
  | .kind name => "not a JSON value: " ++ name
  | .outOfRange => "Out of range float values are not JSON compliant"
  | .digits =>
    s!"Exceeds the limit ({Json.maxDigits} digits) for integer string conversion; " ++
      "use sys.set_int_max_str_digits() to increase the limit"
  | .depth => "maximum recursion depth exceeded"

/-- Why a project, its configuration or its plugins cannot be used. -/
inductive ConfigurationFault where
  | unreadable (name reason : Text)
  | notAnObject (name : Text)
  | optionsNotAnObject (name : Text)
  | pathsNotAnObject (name : Text)
  | targetsNotTexts (name pattern : Text)
  | noProjectAbove
  | noAppDirectory
  | missingRoot (root : Text)
  | digestOutside (target root : Text)
  | digestOfNoDirectory (target : Text)
  | digestKey (key : Text)
  | reportLevel (level : Value)
  | pluginName (name : Value)
  | twoBuildPhases (name : Text)
  | duplicatePlugins (names : List Text)
  | noCallTarget (plugin : Text)
  | pluginSpec (spec : Text)
  | pluginModule (name reason : Text)
  | pluginAttribute (name member : Text)
  | notPlugins (spec : Text)
  | noPlugins

/-- The kinds of file that can configure a project. -/
def nextConfigKinds : List Text := ["js", "mjs", "cjs", "mts", "cts", "ts"]

/-- The environment variable that names plugins. -/
def pluginsVariable : Text := "ROUTECAST_PLUGINS"

/-- The words for a fault of configuration. -/
def ConfigurationFault.message : ConfigurationFault → Text
  | .unreadable name reason => "Failed to parse " ++ name ++ ": " ++ reason
  | .notAnObject name => "Invalid " ++ name ++ ": expected a JSON object"
  | .optionsNotAnObject name => "Invalid " ++ name ++ ": compilerOptions must be an object"
  | .pathsNotAnObject name => "Invalid " ++ name ++ ": compilerOptions.paths must be an object"
  | .targetsNotTexts name pattern =>
    "Invalid " ++ name ++ ": paths[" ++ Text.quoted pattern ++ "] must be a list of strings"
  | .noProjectAbove =>
    "Must run from within a Next.js project. Couldn't find a next.config.\x7b" ++
      Text.joinWith ", " nextConfigKinds ++ "\x7d"
  | .noAppDirectory =>
    "Must run from within a Next.js project that uses the app router. " ++
      "Couldn't find an \"app\" or \"src/app\" directory."
  | .missingRoot root => "Project root does not exist: " ++ root
  | .digestOutside target root =>
    "Cannot hash " ++ target ++ ": it is not in the project root " ++ root
  | .digestOfNoDirectory target => "Cannot hash " ++ target ++ ": not a directory"
  | .digestKey key => "Invalid hash key " ++ Text.quoted key
  | .reportLevel level =>
    "Unknown level " ++ level.quoted ++ "; expected 'error' or 'warning'"
  | .pluginName name => "Invalid plugin name " ++ name.quoted
  | .twoBuildPhases name =>
    "Plugin " ++ Text.quoted name ++ " defines both a builder and a reducer"
  | .duplicatePlugins names => "Duplicate plugin names: " ++ Text.joinWith ", " names
  | .noCallTarget plugin =>
    plugin ++ ": config.path must name the module exporting the function"
  | .pluginSpec spec => "Invalid plugin spec " ++ Text.quoted spec ++ "; expected module:attr"
  | .pluginModule name reason =>
    "Cannot import plugin module " ++ Text.quoted name ++ ": " ++ reason
  | .pluginAttribute name member =>
    "Plugin module " ++ Text.quoted name ++ " has no attribute " ++ Text.quoted member
  | .notPlugins spec =>
    spec ++ " is not a Plugin, a list of Plugins, or a factory returning them"
  | .noPlugins => "No plugins given; pass --plugins module:attr or set " ++ pluginsVariable

/-- Why a store refuses an access. -/
inductive StoreFault where
  | emptyPath
  | segment (found : Value) (path : List Value)
  | unregistered (path : List Text)
  | overlap (path existing : List Text)
  | notExact (path : List Text)
  | parseCache
  | notArray (verb : Text) (path : List Text)
  | notMap (path : List Text)
  | notMergeable (kindName : Text) (path : List Text)
  | nameless
  | notStarted
  | ended (name : Text)
  | outsideRoot (file : Text)

/-- The words for a refused access. -/
def StoreFault.message : StoreFault → Text
  | .emptyPath => "Access path must have at least one segment"
  | .segment found path =>
    "Invalid access path segment " ++ found.quoted ++ " in " ++ (Value.list path).quoted
  | .unregistered path => "Path " ++ Value.quotedPath path ++ " is not registered"
  | .overlap path existing =>
    "Cannot register " ++ Value.quotedPath path ++ ": overlaps existing registration " ++
      Value.quotedPath existing
  | .notExact path =>
    "Path " ++ Value.quotedPath path ++ " is not an exact registration; cannot write to it"
  | .parseCache => "The parse cache is only written through parse()"
  | .notArray verb path =>
    "Cannot " ++ verb ++ " to " ++ Value.quotedPath path ++ ": value is not an array"
  | .notMap path => "Cannot merge into " ++ Value.quotedPath path ++ ": value is not a map"
  | .notMergeable kindName path =>
    "Cannot merge a " ++ kindName ++ " into " ++ Value.quotedPath path
  | .nameless => "Namespace must be a non-empty string"
  | .notStarted => "Store not initialized. Call start(namespace) before using it."
  | .ended name => "Store is closed: namespace " ++ Text.quoted name ++ " has ended."
  | .outsideRoot file =>
    "Cannot stage a rewrite for " ++ file ++ ": it is not in the project root"

/-- Why the file system refuses an operation. -/
inductive OsCode where
  | missing
  | present
  | notDirectory
  | isDirectory
  | nameTooLong
  | linkLoop
  deriving DecidableEq, Repr

/-- The number of an operating-system error. -/
def OsCode.number : OsCode → Nat
  | .missing => 2
  | .present => 17
  | .notDirectory => 20
  | .isDirectory => 21
  | .nameTooLong => 36
  | .linkLoop => 40

/-- The words for an operating-system error. -/
def OsCode.text : OsCode → Text
  | .missing => "No such file or directory"
  | .present => "File exists"
  | .notDirectory => "Not a directory"
  | .isDirectory => "Is a directory"
  | .nameTooLong => "File name too long"
  | .linkLoop => "Too many levels of symbolic links"

/-- The class of an operating-system error. -/
def OsCode.label : OsCode → Text
  | .missing => "FileNotFoundError"
  | .present => "FileExistsError"
  | .notDirectory => "NotADirectoryError"
  | .isDirectory => "IsADirectoryError"
  | .nameTooLong | .linkLoop => "OSError"

/-- A value of the wrong kind. -/
inductive KindFault where
  | notIterable (kindName : Text)
  | notPath (kindName : Text)
  | codeNotText (kindName : Text)
  | notWritable (kindName : Text)
  | notDocument (kindName : Text)
  | documentKey (kindName : Text)
  | notIndexable (kindName : Text)
  /-- A search in something that holds nothing. -/
  | notSearchable (kindName : Text)
  /-- A search for a text in bytes. -/
  | notBytes
  /-- A field of something whose items have numbers instead. -/
  | numbered (kindName : Text)
  | textIndex
  | unhashable (kindName : Text)
  /-- A value that cannot be taken below a path. -/
  | notBelowPath (kindName : Text)
  /-- A module that is named from another one, which is not given. -/
  | relativeModule (name : Text)
  | pairNotSequence (index : Nat)

/-- The words for a value of the wrong kind. -/
def KindFault.message : KindFault → Text
  | .notIterable kindName => "'" ++ kindName ++ "' object is not iterable"
  | .notPath kindName => "expected str, bytes or os.PathLike object, not " ++ kindName
  | .codeNotText kindName => "Rewritten code must be a string, got " ++ kindName
  | .notWritable kindName => "data must be str, not " ++ kindName
  | .notDocument kindName => "Object of type " ++ kindName ++ " is not JSON serializable"
  | .documentKey kindName =>
    "keys must be str, int, float, bool or None, not " ++ kindName
  | .notIndexable kindName => "'" ++ kindName ++ "' object is not subscriptable"
  | .notSearchable kindName => "argument of type '" ++ kindName ++ "' is not iterable"
  | .notBytes => "a bytes-like object is required, not 'str'"
  | .numbered kindName => kindName ++ " indices must be integers or slices, not str"
  | .textIndex => "string indices must be integers, not 'str'"
  | .unhashable kindName => "unhashable type: '" ++ kindName ++ "'"
  | .notBelowPath kindName =>
    "unsupported operand type(s) for /: 'PosixPath' and '" ++ kindName ++ "'"
  | .relativeModule name =>
    "the 'package' argument is required to perform a relative import for " ++ Text.quoted name
  | .pairNotSequence index =>
    s!"cannot convert dictionary update sequence element #{index} to a sequence"

/-- A value of the right kind that does not fit. -/
inductive RangeFault where
  | outsideRoot (path root : Text)
  | edit (start stop : Int)
  | emptyName (path : Text)
  | invalidName (name : Text)
  | notBelow (path root : Text)
  | notNumber (text : Text)
  /-- A number with too many digits. -/
  | digits (count : Nat)
  | pairLength (index length : Nat)
  | nullByte

/-- How much of a quoted text that is no number is shown. -/
def shownLength : Nat := 200

/-- The words for a value that does not fit. -/
def RangeFault.message : RangeFault → Text
  | .outsideRoot path root =>
    "Cannot write " ++ path ++ " because it is not in the project root " ++ root ++ "."
  | .edit start stop => s!"Invalid or overlapping edit at bytes {start}..{stop}"
  | .emptyName path => "PosixPath(" ++ Text.quoted path ++ ") has an empty name"
  | .invalidName name => "Invalid name " ++ Text.quoted name
  | .notBelow path root =>
    Text.quoted path ++ " is not in the subpath of " ++ Text.quoted root ++
      " OR one path is relative and the other is absolute."
  | .notNumber text =>
    "invalid literal for int() with base 10: " ++
      (Text.quoted text).take shownLength
  | .digits count => Json.digitsMessage count
  | .pairLength index length =>
    s!"dictionary update sequence element #{index} has length {length}; 2 is required"
  | .nullByte => "embedded null byte"

/-- The class of a fault that plugin code raises: its name, and those of the classes above it. -/
structure FaultClass where
  name : Text
  above : List Text := []

instance : Coe Text FaultClass := ⟨fun name => { name }⟩

/-- Why an operation fails. -/
inductive Fault where
  | configuration (cause : ConfigurationFault)
  | store (cause : StoreFault)
  /-- An import leads nowhere; `aliased` if an alias pattern took part in it. -/
  | unresolved (aliased : Bool) (specifier importer : Text)
  /-- A report against a file that is not there. -/
  | reportTarget (file : Text)
  | reportKind (kind : Value)
  /-- A value that a store cannot keep. -/
  | unkept (path : List Text) (cause : NotJson)
  /-- A record that a ledger cannot keep. -/
  | record (file : Text)
  | notJson (cause : NotJson)
  | os (code : OsCode) (place : Text)
  /-- The root of a tree to remove is a link. -/
  | linkedTree
  /-- A path runs in a circle of links. -/
  | linkCircle (path : Text)
  /-- A file to parse that is not there. -/
  | notParsable (path : Text)
  | decoding (cause : Utf8.Error)
  /-- A text, or the name of a file, that has no bytes. -/
  | encoding (cause : Utf8.Unencodable)
  | reading (cause : Json.ReadFault)
  | kind (cause : KindFault)
  | range (cause : RangeFault)
  | noMember (kindName member : Text)
  | missingKey (key : Value)
  /-- A fault that plugin code raises itself. -/
  | raised (kind : FaultClass) (text : Text)

namespace Fault

/-- The message of a decoding error. -/
def decodingMessage (e : Utf8.Error) : Text :=
  if e.size == 1 then
    "'utf-8' codec can't decode byte 0x" ++ Text.ofChars (Text.hexPadded 2 e.byte.toNat) ++
      s!" in position {e.start}: " ++ e.flaw.reason
  else
    let last := e.start + e.size - 1
    s!"'utf-8' codec can't decode bytes in position {e.start}-{last}: " ++ e.flaw.reason

/-- The message of an encoding error. -/
def encodingMessage (e : Utf8.Unencodable) : Text :=
  if e.count == 1 then
    "'utf-8' codec can't encode character '" ++ Text.ofChars (Text.codeEscape e.code) ++
      s!"' in position {e.start}: surrogates not allowed"
  else
    let last := e.start + e.count - 1
    s!"'utf-8' codec can't encode characters in position {e.start}-{last}: surrogates not allowed"

/-- What a fault says. -/
def message : Fault → Text
  | .configuration c => c.message
  | .store c => c.message
  | .unresolved aliased specifier importer =>
    "Cannot resolve " ++ (if aliased then "aliased import " else "") ++ Text.quoted specifier ++
      " imported from " ++ importer
  | .reportTarget file => "Cannot report against " ++ file ++ ": file does not exist"
  | .reportKind v =>
    "Unknown report kind " ++ v.quoted ++ "; expected 'error' or 'warning'"
  | .unkept path c =>
    "Value for " ++ Value.quotedPath path ++ " is not JSON-serializable: " ++ c.message
  | .record file => "Ledger record for " ++ file ++ " is not JSON-serializable"
  | .notJson c => c.message
  | .os code place => s!"[Errno {code.number}] " ++ code.text ++ ": " ++ place
  | .linkedTree => "Cannot call rmtree on a symbolic link"
  | .linkCircle path => "Symlink loop from " ++ Text.quoted path
  | .notParsable path => "Cannot parse " ++ path ++ ": file does not exist"
  | .decoding e => decodingMessage e
  | .encoding e => encodingMessage e
  | .reading e => e.message
  | .kind c => c.message
  | .range c => c.message
  | .noMember kindName member =>
    "'" ++ kindName ++ "' object has no attribute '" ++ member ++ "'"
  | .missingKey key => key.quoted
  | .raised c text => if (c.name :: c.above).contains "KeyError" then Text.quoted text else text

/-- The class of a fault. -/
def label : Fault → Text
  | .configuration _ => "ConfigurationError"
  | .store _ => "StoreAccessError"
  | .unresolved .. => "ImportResolutionError"
  | .reportTarget _ | .reportKind _ => "LedgerError"
  | .unkept .. | .record _ => "SerializationError"
  | .notJson (.kind _) | .kind _ => "TypeError"
  | .notJson .outOfRange | .notJson .digits | .range _ => "ValueError"
  | .notJson .depth => "RecursionError"
  | .os code _ => code.label
  | .linkedTree => "OSError"
  | .linkCircle _ => "RuntimeError"
  | .notParsable _ => "FileNotFoundError"
  | .decoding _ => "UnicodeDecodeError"
  | .encoding _ => "UnicodeEncodeError"
  | .reading (.syntactic _) => "JSONDecodeError"
  | .reading (.digits _) => "ValueError"
  | .reading (.depth _) => "RecursionError"
  | .noMember .. => "AttributeError"
  | .missingKey _ => "KeyError"
  | .raised c _ => c.name

/-- Whether a value of the right kind is at fault, such as a text that has no bytes. -/
def isValueFault : Fault → Bool
  | .range _ | .notJson .outOfRange | .notJson .digits | .encoding _ | .decoding _ => true
  | .reading (.syntactic _) | .reading (.digits _) => true
  | _ => false

/-- The class of a fault, and the classes above one that plugin code raises. -/
def classes : Fault → List Text
  | .raised c _ => c.name :: c.above
  | f => [f.label]

/-- Whether the project is at fault, so that no run makes sense. -/
def isConfiguration (f : Fault) : Bool := f.classes.contains "ConfigurationError"

/-- The classes of faults that end a program. -/
def interruptionLabels : List Text :=
  ["BaseException", "GeneratorExit", "KeyboardInterrupt", "SystemExit"]

/-- Whether a fault ends the program: nothing that works around plugin code holds it back. -/
def isInterruption (f : Fault) : Bool :=
  f.classes.any interruptionLabels.contains && !f.classes.contains "Exception"

/-- The classes of faults that the pipeline defines itself. -/
def pipelineLabels : List Text :=
  ["PipelineError", "ConfigurationError", "StoreAccessError", "ImportResolutionError",
    "LedgerError", "SerializationError"]

/-- Whether a fault is one of the pipeline's own. -/
def isPipeline (f : Fault) : Bool := f.classes.any pipelineLabels.contains

/-- The label and the message, as reports show them. -/
def report (f : Fault) : Text := f.label ++ ": " ++ f.message

end Fault

end RoutePlugins
