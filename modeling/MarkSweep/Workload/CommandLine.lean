import MarkSweep.Workload
/-!
# Command line — the arguments of the workload driver

Every option takes a number, as `--name value` or as `--name=value`, and may be given once.  The first argument that
does not fit decides what becomes of the rest.
-/
namespace MarkSweep

inductive Command where
  | run (o : Workload)
  | help
  | version
  | invalid
  deriving DecidableEq, Repr

namespace Command

inductive OptionName where
  | heapSize
  | tlabSize
  | threads
  | objects
  | keepEvery
  | cycles
  deriving DecidableEq, Repr

namespace OptionName

def all : List OptionName := [heapSize, tlabSize, threads, objects, keepEvery, cycles]

def text : OptionName → String
  | heapSize => "heap-size"
  | tlabSize => "tlab-size"
  | threads => "threads"
  | objects => "objects"
  | keepEvery => "keep-every"
  | cycles => "cycles"

def ofText? (s : String) : Option OptionName := all.find? (·.text == s)

def about : OptionName → String
  | heapSize => "Heap size in MB"
  | tlabSize => "Requested TLAB size in KB"
  | threads => "Number of mutator threads"
  | objects => "Objects allocated per thread"
  | keepEvery => "Keep every n-th object reachable (0 keeps nothing)"
  | cycles => "Explicit collections run after the workload"

def standard : OptionName → Nat
  | heapSize => 64
  | tlabSize => 64
  | threads => 4
  | objects => 1000000
  | keepEvery => 100
  | cycles => 1

end OptionName

abbrev Given := List (OptionName × Nat)

def valueOf (given : Given) (n : OptionName) : Nat := (given.lookup n).getD n.standard

def workload (given : Given) : Workload :=
  { heapSize := valueOf given .heapSize
    tlabSize := valueOf given .tlabSize
    threads := valueOf given .threads
    objects := valueOf given .objects
    keepEvery := valueOf given .keepEvery
    cycles := valueOf given .cycles }

def isDigit (c : Char) : Bool := '0' ≤ c && c ≤ '9'

/-- Reads decimal digits, at least one, behind at most one plus sign; the number has to be below `addressLimit`. -/
def number? (s : List Char) : Option Nat :=
  let digits := match s with
    | '+' :: rest => rest
    | _ => s
  let n := digits.foldl (fun n c => n * 10 + (c.toNat - '0'.toNat)) 0
  if !digits.isEmpty && digits.all isDigit && n < addressLimit then some n else none

/-- Whether an argument can be the value of the option before it: it does not look like an option. -/
def isValue (arg : List Char) : Bool :=
  match arg with
  | ['-'] => true
  | '-' :: _ => false
  | _ => true

/-- Takes down a value; nothing where it is no number or the option was given before. -/
def give (given : Given) (n : OptionName) (value : List Char) : Option Given := do
  let v ← number? value
  if (given.lookup n).isSome then none else some ((n, v) :: given)

/-- Splits `name=value`; there is no value without the sign. -/
def splitValue (s : List Char) : String × Option (List Char) :=
  let name := String.ofList (s.takeWhile (· != '='))
  match s.dropWhile (· != '=') with
  | _ :: value => (name, some value)
  | [] => (name, none)

def parseFrom (given : Given) : List (List Char) → Command
  | [] => .run (workload given)
  | ['-', '-'] :: rest => if rest.isEmpty then .run (workload given) else .invalid
  | ('-' :: '-' :: long) :: rest =>
    match splitValue long with
    | ("help", none) => .help
    | ("version", none) => .version
    | (name, value) =>
      match OptionName.ofText? name, value, rest with
      | none, _, _ => .invalid
      | some n, some v, rest =>
        match give given n v with
        | some given => parseFrom given rest
        | none => .invalid
      | some n, none, v :: rest =>
        if isValue v then
          match give given n v with
          | some given => parseFrom given rest
          | none => .invalid
        else .invalid
      | some _, none, [] => .invalid
  | ('-' :: 'h' :: _) :: _ => .help
  | ('-' :: 'V' :: _) :: _ => .version
  | _ => .invalid

def parse (args : List String) : Command := parseFrom [] (args.map String.toList)

/-- The status of a call with arguments that do not fit. -/
def invalidExitCode : Nat := 2

/-- What the program does with its arguments: the status it ends with, and its log. -/
def execute (args : List String) (base : Address) : RunOutcome :=
  match parse args with
  | .run o => o.run base
  | .help | .version => { exitCode := 0, reports := #[] }
  | .invalid => { exitCode := invalidExitCode, reports := #[] }

end Command

end MarkSweep
