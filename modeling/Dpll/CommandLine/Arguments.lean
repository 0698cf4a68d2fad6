import Dpll.CommandLine.Parameter

/-! Reading a command line. Arguments are taken from left to right, and the first error or
request for help decides. A value that stands in an argument of its own is checked when the next
parameter is met or the arguments end; a subcommand is read to its end before the values ahead
of it are checked. -/

namespace Dpll

/-- Why a command line cannot be understood. -/
inductive UsageError where
  | unknownArgument (text : String)
  | unknownCommand (name : String)
  | unexpectedValue (parameter : Parameter) (value : String)
  | missingValue (parameter : Parameter)
  | invalidValue (parameter : Parameter) (value : String)
  | repeated (parameter : Parameter)
  | missing (parameter : Parameter)
deriving DecidableEq, Repr

/-- The text of an error. -/
def UsageError.message : UsageError → String
  | unknownArgument text => s!"unexpected argument '{text}' found"
  | unknownCommand name => s!"unrecognized subcommand '{name}'"
  | unexpectedValue p value => s!"unexpected value '{value}' for '{p.toText}' found"
  | missingValue p => s!"a value is required for '{p.toText}' but none was supplied"
  | invalidValue p value => s!"invalid value '{value}' for '{p.toText}'"
  | repeated p => s!"the argument '{p.toText}' cannot be used multiple times"
  | missing p => s!"the required argument '{p.toText}' was not provided"

/-- The forms an argument can have. -/
inductive ArgumentForm where
  /-- Two dashes alone: operands only from here on. -/
  | separator
  /-- A name after two dashes, perhaps with a value after an equals sign. -/
  | long (name : String) (value : Option String)
  /-- Letters after one dash. -/
  | letters (cs : List Char)
  /-- Anything else, a dash alone included. -/
  | plain (text : String)

/-- The form of an argument. -/
def ArgumentForm.ofText (argument : String) : ArgumentForm :=
  match argument.toList with
  | ['-', '-'] => separator
  | '-' :: '-' :: cs =>
    let (name, rest) := cs.span (· != '=')
    long (String.ofList name) (rest.tail?.map String.ofList)
  | '-' :: c :: cs => letters (c :: cs)
  | _ => plain argument

/-- The state of reading in one scope. -/
structure ArgumentReader where
  scope : Scope
  settings : Settings := {}
  /-- The parameters whose values are taken in. -/
  given : List Parameter := []
  /-- A parameter with a value that is not checked yet. -/
  pending : Option (Parameter × String) := none
  /-- The parameter whose value is the next argument. -/
  awaiting : Option Parameter := none
  /-- Whether all further arguments are operands. -/
  operandsOnly : Bool := false

/-- What ends the reading of a command line before its arguments do. -/
inductive Interruption where
  | misuse (e : UsageError)
  /-- A question that makes the rest of the command line irrelevant. -/
  | question (q : Inquiry)

/-- Readings that may be interrupted. -/
abbrev ReadM := Except Interruption

namespace ArgumentReader

/-- Refuses the command line. -/
def refuse {α : Type} (e : UsageError) : ReadM α := .error (.misuse e)

/-- Takes in a value. -/
def take (r : ArgumentReader) (p : Parameter) (value : String) : ReadM ArgumentReader :=
  if p ∈ r.given then refuse (.repeated p)
  else
    match r.settings.set? p value with
    | none => refuse (.invalidValue p value)
    | some settings => .ok { r with settings, given := p :: r.given }

/-- Takes in the value that is not checked yet. -/
def settle (r : ArgumentReader) : ReadM ArgumentReader :=
  match r.pending with
  | none => .ok r
  | some (p, value) => { r with pending := none }.take p value

/-- Reads a name after two dashes. -/
def long (r : ArgumentReader) (name : String) (value : Option String) : ReadM ArgumentReader :=
  match r.scope.parameters.find? fun p => p.name? = some name, value with
  | some p, some value =>
    if p.isFlag then refuse (.unexpectedValue p value) else r.take p value
  | some p, none => if p.isFlag then r.take p "" else .ok { r with awaiting := some p }
  | none, none =>
    if name = "help" then .error (.question .help)
    else if name = "version" ∧ r.scope = .program then .error (.question .version)
    else refuse (.unknownArgument ("--" ++ name))
  | none, some _ => refuse (.unknownArgument ("--" ++ name))

/-- Reads letters after one dash. The letter of a parameter with a value ends them: the value is
what follows, without an equals sign ahead of it, or the next argument. -/
def letters (r : ArgumentReader) : List Char → ReadM ArgumentReader
  | [] => .ok r
  | c :: cs =>
    match r.scope.parameters.find? fun p => p.letter? = some c with
    | some p =>
      if p.isFlag then
        match r.take p "" with
        | .error e => .error e
        | .ok r => r.letters cs
      else
        match cs with
        | [] => .ok { r with awaiting := some p }
        | '=' :: value => r.take p (String.ofList value)
        | value => r.take p (String.ofList value)
    | none =>
      if c = 'h' then .error (.question .help)
      else if c = 'V' ∧ r.scope = .program then .error (.question .version)
      else refuse (.unknownArgument (String.ofList ['-', c]))

/-- Reads an operand. -/
def operand (r : ArgumentReader) (text : String) : ReadM ArgumentReader := do
  let r ← r.settle
  match r.scope.operand? with
  | some p =>
    if p ∈ r.given then refuse (.unknownArgument text)
    else return { r with pending := some (p, text) }
  | none => refuse (.unknownArgument text)

/-- A value that has to be there. -/
def require {α : Type} (p : Parameter) : Option α → ReadM α
  | some a => .ok a
  | none => refuse (.missing p)

/-- What is asked for once the arguments have ended. -/
def finish (r : ArgumentReader) : ReadM Invocation := do
  if let some p := r.awaiting then refuse (.missingValue p)
  let s := (← r.settle).settings
  match r.scope with
  | .program =>
    match s.path with
    | none => return .inquire .help
    | some p => return .run (.path p) s.options
  | .file => return .run (.file (← require .path s.path)) s.options
  | .text => return .run (.text s.formula) s.options
  | .directory => return .run (.directory (← require .path s.path)) s.options
  | .convert => return .run (.convert s.input s.output) s.options
  | .completions => return .inquire (.completions (← require .shell s.shell))

/-- Help on one of the subcommands, or on all. -/
def helpOn : List String → ReadM Invocation
  | [] => .error (.question .help)
  | [name] =>
    if name = "help" ∨ (Scope.ofText? name).isSome then .error (.question .help)
    else refuse (.unknownCommand name)
  | _ :: name :: _ => refuse (.unknownCommand name)

/-- Reads the arguments from here on. -/
def read (r : ArgumentReader) : List String → ReadM Invocation
  | [] => r.finish
  | argument :: rest =>
    match r.awaiting, r.operandsOnly, ArgumentForm.ofText argument with
    | some p, _, .plain value =>
      { r with awaiting := none, pending := some (p, value) }.read rest
    | some p, _, _ => refuse (.missingValue p)
    | none, true, _ => do (← r.operand argument).read rest
    | none, false, .separator => { r with operandsOnly := true }.read rest
    | none, false, .long name value => do (← (← r.settle).long name value).read rest
    | none, false, .letters cs => do (← (← r.settle).letters cs).read rest
    | none, false, .plain text =>
      match r.scope, Scope.ofText? text with
      | .program, some scope => do
        let i ← ArgumentReader.read { scope } rest
        let _ ← r.settle
        return i
      | .program, none =>
        if text = "help" then helpOn rest else do (← r.operand text).read rest
      | _, _ => do (← r.operand text).read rest

end ArgumentReader

/-- Reads the arguments of a command line. -/
def Invocation.ofArguments (arguments : List String) : Except UsageError Invocation :=
  match ArgumentReader.read { scope := .program } arguments with
  | .ok i => .ok i
  | .error (.question q) => .ok (.inquire q)
  | .error (.misuse e) => .error e

end Dpll
