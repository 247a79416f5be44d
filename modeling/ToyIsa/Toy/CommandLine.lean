import Mathlib.Data.List.Basic
import ToyIsa.Toy.Context

/-!
# The command line

Port of `parseCommandLine` of `main.cpp`. `std::stoull` is that of the C locale, and the texts of
its exceptions are those of libstdc++.
-/

namespace ToyIsa

@[ext]
structure CommandLineOptions where
  filename : String
  mode : TIExecutionMode := .threaded
  jitThreshold : Nat := 0
  jitOptimizationLevel : Byte := 0
  deriving DecidableEq, Repr

namespace CommandLine

/-- `std::isspace`. -/
def isSpace (c : Char) : Bool := c.toNat == 32 || 9 ≤ c.toNat && c.toNat ≤ 13

/-- Whether there is a minus in front, and what follows the sign. -/
def takeSign : List Char → Bool × List Char
  | [] => (false, [])
  | c :: rest =>
    if c = '-' then (true, rest)
    else if c = '+' then (false, rest)
    else (false, c :: rest)

/-- `std::stoull(Value, &ParsedCharacters)`: the number and `ParsedCharacters`. -/
def stoull (value : List Char) : Except Failure (Nat × Nat) :=
  let (negative, text) := takeSign (value.dropWhile isSpace)
  let digits := text.takeWhile Char.isDigit
  let number := Nat.ofDigitChars 10 digits 0
  -- `std::invalid_argument` and `std::out_of_range`
  if digits = [] ∨ 2 ^ 64 ≤ number then .error (.runtime "stoull")
  else
    .ok (if negative then u64 (2 ^ 64 - number) else number,
      value.length - (text.dropWhile Char.isDigit).length)

def engineSwitch : String := "--engine=switch"
def engineJit : String := "--engine=jit"
def engineThreaded : String := "--engine=threaded"
def jitThresholdOption : String := "--jit-threshold="
def jitOptLevelOption : String := "--jit-opt-level="

/-- `Argument.substr(sizeof(Option) - 1)`, if `Argument.rfind(Option, 0) == 0`. -/
def valueOf (option argument : String) : Option (List Char) :=
  argument.toList.dropPrefix? option.toList

def parseJitThreshold (value : List Char) (options : CommandLineOptions) :
    Except Failure CommandLineOptions := do
  let (number, parsedCharacters) ← stoull value
  if parsedCharacters ≠ value.length then
    throw (.runtime ("Invalid JIT threshold: " ++ .ofList value))
  return { options with jitThreshold := number }

def parseJitOptLevel (value : List Char) (options : CommandLineOptions) :
    Except Failure CommandLineOptions := do
  let (parsedLevel, parsedCharacters) ← stoull value
  if parsedCharacters ≠ value.length ∨ parsedLevel > 2 then
    throw (.runtime ("Invalid JIT optimization level: " ++ .ofList value))
  return { options with jitOptimizationLevel := BitVec.ofNat 8 parsedLevel }

/-- An argument that is no engine. -/
def parseOption (options : CommandLineOptions) (argument : String) :
    Except Failure CommandLineOptions :=
  match valueOf jitThresholdOption argument, valueOf jitOptLevelOption argument with
  | some value, _ => parseJitThreshold value options
  | none, some value => parseJitOptLevel value options
  | none, none => .error (.runtime ("Unknown argument: " ++ argument))

/-- One turn of the loop over the arguments. -/
def parseArgument (options : CommandLineOptions) (argument : String) :
    Except Failure CommandLineOptions :=
  if argument = engineSwitch then .ok { options with mode := .switch }
  else if argument = engineJit then .ok { options with mode := .jit }
  else if argument = engineThreaded then .ok { options with mode := .threaded }
  else parseOption options argument

def usage (program : String) : String :=
  "Usage: " ++ program ++ " <program.elf> [--engine=threaded|switch|jit]" ++
    " [--jit-threshold=N] [--jit-opt-level=0|1|2]"

end CommandLine

open CommandLine in
/-- The arguments include the name of the program. Without it the usage text is built from a null
pointer. -/
def parseCommandLine (arguments : List String) : Except Failure CommandLineOptions :=
  match arguments with
  | [] => .error .undefined
  | [program] => .error (.runtime (usage program))
  | program :: filename :: rest =>
    if arguments.length > 5 then .error (.runtime (usage program))
    else rest.foldlM parseArgument { filename := filename }

end ToyIsa
