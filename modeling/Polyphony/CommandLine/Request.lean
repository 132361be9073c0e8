import Polyphony.Number.Numeral

/-! # Requests

The arguments of the program are a request: to render a score, to check one, to list
the instruments, or for help. Options may stand before or behind the score, and their
values may be attached to them.
-/
namespace Polyphony.CommandLine

inductive Request where
  | render (score : String) (output : Option String) (threads : Option Nat)
  | check (score : String)
  | instruments
  | help
deriving DecidableEq, Repr

/-- Why arguments are given up: they make no request, or help is asked for. -/
inductive Interruption where
  | usage | help
deriving DecidableEq, Repr

inductive Choice where
  | output | threads
deriving DecidableEq, Repr

namespace Choice

def longName : Choice → String
  | .output => "output"
  | .threads => "threads"

def shortName : Choice → Char
  | .output => 'o'
  | .threads => 't'

end Choice

/-- What one argument is. An option may bring its value along. -/
inductive Argument where
  | separator
  | help
  | unknown
  | choice (c : Choice) (value : Option String)
  | operand (text : String)
deriving DecidableEq, Repr

namespace Argument

/-- An argument behind two dashes: a name, and a value behind an equals sign. -/
def ofLong (choices : List Choice) (cs : List Char) : Argument :=
  let name := String.ofList (cs.takeWhile (· ≠ '='))
  let value := match cs.dropWhile (· ≠ '=') with
    | _ :: value => some (String.ofList value)
    | [] => none
  match choices.find? (·.longName = name) with
  | some c => .choice c value
  | none => if name = "help" ∧ value = none then .help else .unknown

/-- An argument behind one dash: a letter, and a value with or without an equals sign. -/
def ofShort (choices : List Choice) (letter : Char) (cs : List Char) : Argument :=
  let value := match cs with
    | [] => none
    | '=' :: value => some (String.ofList value)
    | _ => some (String.ofList cs)
  match choices.find? (·.shortName = letter) with
  | some c => .choice c value
  | none => if letter = 'h' then .help else .unknown

def ofText (choices : List Choice) (text : String) : Argument :=
  match text.toList with
  | ['-', '-'] => .separator
  | '-' :: '-' :: cs => ofLong choices cs
  | '-' :: letter :: cs => ofShort choices letter cs
  | _ => .operand text

end Argument

structure Given where
  score : Option String
  output : Option String
  threads : Option Nat

namespace Given

def nothing : Given := ⟨none, none, none⟩

def addOperand (g : Given) (text : String) : Except Interruption Given :=
  if g.score.isNone ∧ text ≠ "" then .ok { g with score := some text } else .error .usage

/-- An option may be given once, with a value that it can take. -/
def addChoice (g : Given) (value : String) : Choice → Except Interruption Given
  | .output =>
    if g.output.isNone ∧ value ≠ "" then .ok { g with output := some value } else .error .usage
  | .threads =>
    match Number.count? value.toList with
    | some n => if g.threads.isNone then .ok { g with threads := some n } else .error .usage
    | none => .error .usage

/-- Read the arguments of a command from left to right. The value of an option may be
the argument behind it, unless that looks like an option. -/
def read (choices : List Choice) : List String → Given → Except Interruption Given
  | [], g => .ok g
  | arg :: rest, g =>
    match Argument.ofText choices arg with
    | .separator => rest.foldlM addOperand g
    | .help => .error .help
    | .unknown => .error .usage
    | .operand text => do read choices rest (← g.addOperand text)
    | .choice c (some value) => do read choices rest (← g.addChoice value c)
    | .choice c none =>
      match rest with
      | value :: rest =>
        match Argument.ofText choices value with
        | .operand value => do read choices rest (← g.addChoice value c)
        | _ => .error .usage
      | [] => .error .usage

end Given

namespace Request

def commands : List String := ["render", "check", "instruments", "help"]

def interpret : List String → Except Interruption Request
  | "render" :: rest => do
    let g ← Given.read [.output, .threads] rest .nothing
    match g.score with
    | some score => .ok (.render score g.output g.threads)
    | none => .error .usage
  | "check" :: rest => do
    match (← Given.read [] rest .nothing).score with
    | some score => .ok (.check score)
    | none => .error .usage
  | "instruments" :: rest => do
    match (← Given.read [] rest .nothing).score with
    | some _ => .error .usage
    | none => .ok .instruments
  | "help" :: rest =>
    if rest = [] ∨ ∃ name ∈ commands, rest = [name] then .ok .help else .error .usage
  | arg :: _ => .error (if Argument.ofText [] arg = .help then .help else .usage)
  | [] => .error .usage

def ofArguments? (args : List String) : Option Request :=
  match interpret args with
  | .ok r => some r
  | .error .help => some .help
  | .error .usage => none

end Request
end Polyphony.CommandLine
