import RoutePlugins.Ledger.Basic
import RoutePlugins.Routes.Table
import RoutePlugins.Store.Call

/-!
# Phases

A phase of a plugin is a program that makes requests and goes on with their answers. Everything a
plugin can do to a run is a request, so what holds of every request holds of every phase.
-/

namespace RoutePlugins

/-- What a phase is told about its run. -/
structure PluginContext where
  plugin : Text
  root : Path
  routes : List Route
  sourceFiles : List Text
  config : List (Value × Value)
  data : Value

/-- A request that a phase can make. -/
inductive Request where
  /-- Parse a source file. -/
  | parse (file : Text)
  /-- The source file that a path names, from the project root. -/
  | sourceFile (path : Text)
  | routes
  | imports (file : Text)
  /-- The files reached from a file through imports. -/
  | reached (file : Text)
  | clientFiles
  | serverFiles
  /-- Add a value to the collection of the plugin. -/
  | collect (value : Value)
  | collected
  /-- Replace the saved value of the plugin. -/
  | save (value : Value)
  | saved
  | savedHistory
  /-- Report an error or a warning. -/
  | report (kind : ReportKind) (message : Value) (file : Text) (mark : Option Mark)
  | records (kind : ReportKind)
  /-- Stage the new text of a file. -/
  | stage (code : Value) (file : Text)
  | staged
  | stagedHistory
  /-- Use the store of the plugin directly. -/
  | store (call : StoreCall)
  | context
  /-- Set an entry of the configuration, for the rest of the run. -/
  | configure (key : Text) (value : Value)
  /-- Leave an entry in the trace of the run. -/
  | note (phase action : Text) (result : Value)

/-- What a request is answered with. -/
abbrev Request.Reply : Request → Type
  | .parse _ => ParsedFile
  | .sourceFile _ => Text
  | .routes => List Route
  | .imports _ => List ResolvedImport
  | .reached _ => List Value
  | .clientFiles | .serverFiles => List Text
  | .collect _ | .save _ | .stage .. | .configure .. | .note .. => Unit
  | .collected | .saved | .savedHistory | .staged | .stagedHistory => Value
  | .report .. => Bool
  | .records _ => Value
  | .store _ => Value
  | .context => PluginContext

/-- A program that makes requests and ends with a value or a fault. -/
inductive Phase (α : Type) where
  | done (a : α)
  | fail (e : Fault)
  | ask (request : Request) (next : Except Fault request.Reply → Phase α)

namespace Phase

/-- Go on with the value that a program ends with. -/
def bind {α β : Type} : Phase α → (α → Phase β) → Phase β
  | .done a, f => f a
  | .fail e, _ => .fail e
  | .ask q next, f => .ask q fun r => (next r).bind f

/-- End with the outcome of a program, value or fault, as a value. -/
def attempt {α : Type} : Phase α → Phase (Except Fault α)
  | .done a => .done (.ok a)
  | .fail e => .done (.error e)
  | .ask q next => .ask q fun r => (next r).attempt

/-- Programs one after the other. -/
instance : Monad Phase where
  pure := .done
  bind := Phase.bind

/-- End with the outcome of a computation. -/
def ofExcept {α : Type} : Except Fault α → Phase α
  | .ok a => .done a
  | .error e => .fail e

/-- Make a request and end with its answer. -/
def call (request : Request) : Phase request.Reply := .ask request ofExcept

end Phase

/-- Whether a request goes through the plugin's own tables, rather than to its store directly. -/
def Request.isOrdinary : Request → Bool
  | .store _ => false
  | _ => true

/-- Programs that never use the store directly, whatever they are answered. -/
inductive Phase.Ordinary {α : Type} : Phase α → Prop where
  | done (a : α) : Ordinary (.done a)
  | fail (e : Fault) : Ordinary (.fail e)
  | ask (request : Request) (next : Except Fault request.Reply → Phase α)
      (h : request.isOrdinary = true) (hn : ∀ r, Ordinary (next r)) : Ordinary (.ask request next)

end RoutePlugins
