/-
The command line: decompose the formula of a file once and report the components.

    decompose [OPTIONS] <FILE>

Options are read from left to right, and the first mistake ends the reading. The value of an
option follows it after `=` or as the next argument; a next argument that starts with a minus sign
is taken only for an assumption, and only if digits follow.
-/
import ModelCount.Decomposer
import ModelCount.Dimacs

namespace ModelCount.CommandLine

open Text

/-! ## Arguments -/

structure Options where
  path : Option String
  /-- signed numbers of the literals to assume -/
  assumptions : List Int
  noCache : Bool
  tableBits : Option Nat
  /-- whether a log level was chosen; the report does not depend on it -/
  levelChosen : Bool
  deriving Repr, Inhabited

/-- the outcome of reading the arguments -/
inductive Request where
  | run (options : Options)
  | help
  | version
  /-- the arguments are wrong -/
  | usage
  deriving Inhabited

def Options.blank : Options := ⟨none, [], false, none, false⟩

def logLevels : List String := ["off", "error", "warn", "info", "debug", "trace"]

/-- a list of signed numbers with commas between them -/
def readAssumptions (value : String) : Option (List Int) :=
  (cut (· == ',') value.toList).mapM fun piece => (readInt 2147483648 piece).toOption

def Options.withValue (o : Options) (name value : String) : Option Options :=
  match name with
  | "assume" => do return { o with assumptions := o.assumptions ++ (← readAssumptions value) }
  | "cache-bits" =>
    if o.tableBits.isSome then none
    else do
      let bits ← (readNat 18446744073709551615 value.toList).toOption
      return { o with tableBits := some bits }
  | "log" =>
    if o.levelChosen || !logLevels.contains (value.map Char.toLower) then none
    else some { o with levelChosen := true }
  | _ => none

/-- an argument that names no option -/
def Options.withPath (o : Options) (path : String) : Option Options :=
  if o.path.isSome then none else some { o with path := some path }

/-- the argument may be the value of the option before it -/
def isValue (name : String) (argument : List Char) : Bool :=
  match argument with
  | '-' :: digits => digits.isEmpty || (name == "assume" && digits.all Char.isDigit)
  | _ => true

def splitOption (argument : List Char) : String × Option String :=
  match argument.dropWhile (· != '=') with
  | _ :: value => (String.ofList (argument.takeWhile (· != '=')), some (String.ofList value))
  | [] => (String.ofList argument, none)

/-- read the arguments after those that made `o` -/
def parse (o : Options) : List String → Request
  | [] => if o.path.isSome then .run o else .usage
  | argument :: rest =>
    match argument.toList with
    | ['-', '-'] =>
      match rest.foldlM Options.withPath o with
      | some o => if o.path.isSome then .run o else .usage
      | none => .usage
    | '-' :: '-' :: long =>
      match splitOption long with
      | ("help", none) => .help
      | ("version", none) => .version
      | ("no-cache", none) =>
        if o.noCache then .usage else parse { o with noCache := true } rest
      | (name, some value) =>
        match o.withValue name value with
        | some o => parse o rest
        | none => .usage
      | (name, none) =>
        match rest with
        | value :: rest =>
          if isValue name value.toList then
            match o.withValue name value with
            | some o => parse o rest
            | none => .usage
          else .usage
        | [] => .usage
    | '-' :: 'h' :: _ => .help
    | '-' :: 'V' :: _ => .version
    | '-' :: _ :: _ => .usage
    | _ =>
      match o.withPath argument with
      | some o => parse o rest
      | none => .usage

/-! ## The report -/

/-- what a run leaves: its exit code, its report, and the texts of its error from the outside in -/
structure Outcome where
  exit : Nat
  report : List String
  errors : List String
  deriving DecidableEq, Repr

inductive Refusal where
  | fault (f : Fault)
  | assumption (n : Int)
  deriving DecidableEq, Repr

/-- the outcome of a run that stops after part of its report -/
def Refusal.outcome (report : List String) : Refusal → Outcome
  | fault f => ⟨101, report, f.message.toList⟩
  | assumption n => ⟨1, report, [s!"assumption {n} is out of range"]⟩

/-- a fault stops the run -/
def orRefuse {α : Type} (r : Except Fault α) : Except Refusal α := r.mapError .fault

def assumeLiteral (numVars : Nat) (values : Assignment) (n : Int) : Except Refusal Assignment :=
  if n = 0 ∨ numVars < n.natAbs then .error (.assumption n)
  else orRefuse (values.assign (Lit.ofInt n))

def formulaLine (f : Formula) : String :=
  s!"Formula: {f.numVars} variables, {f.numLong} long clauses, {f.numBinary} binary clauses, " ++
    s!"{f.units.length} unit clauses"

def componentLine (index : Nat) (comp : Component) : String :=
  s!"  [{index}] {comp.numVars} variables, {comp.numClauses} long clauses: " ++
    Dimacs.bracketed (comp.vars.map Var.id)

def foundLines (found : Bool) (d : Decomposer) (node : Node) : List String :=
  if found then
    let comps := (d.stack.drop node.base).zipIdx node.base
    s!"Found {comps.length} components:" :: comps.map fun c => componentLine c.2 c.1
  else if node.foundUnsat then ["Node is unsatisfiable"]
  else ["No components left"]

/-- the lines after the one about the formula -/
def decompositionLines (o : Options) (f : Formula) : Except Refusal (List String) := do
  let values ← orRefuse ((Assignment.empty f.numVars).assignAll f.units)
  let values ← o.assumptions.foldlM (assumeLiteral f.numVars) values
  let config := Config.standard.withCaching !o.noCache
  let config ← orRefuse (config.withTableBits (o.tableBits.getD config.tableBits))
  let d ← orRefuse (Decomposer.new config)
  let d ← orRefuse (d.load f).result
  let node ← orRefuse d.rootNode
  let (found, d, node) ← orRefuse (d.findNext node values).result
  let store := d.refresh.store
  return foundLines found d node ++
    [s!"Multiplier so far: {node.first.count}",
      s!"Cache: {store.size} entries, {store.lookups} lookups, {store.hits} hits, " ++
        s!"{store.buckets} buckets",
      s!"Cache memory: {store.memory} bytes"]

/-- decompose the formula of a text -/
def run (o : Options) (text : String) : Outcome :=
  match Dimacs.read text with
  | .error e => ⟨1, [], e.chain⟩
  | .ok f =>
    match decompositionLines o f with
    | .ok lines => ⟨0, formulaLine f :: lines, []⟩
    | .error refusal => refusal.outcome [formulaLine f]

/-! ## Other answers -/

def usageLine : String := "Usage: decompose [OPTIONS] <FILE>"

def helpLines : List String :=
  [usageLine,
    "",
    "Arguments:",
    "  <FILE>  Input CNF in DIMACS format",
    "",
    "Options:",
    "      --assume <LIT>      Literals assumed true before decomposing (DIMACS notation)",
    "      --no-cache          Disable component caching",
    "      --cache-bits <INT>  Cache table size (in bits, so the actual size is " ++
      "\x602^bits\x60 buckets) [default: 16]",
    "      --log <LEVEL>       Log level [default: info]",
    "  -h, --help              Print help",
    "  -V, --version           Print version"]

def versionLine : String := "decomp-rs 0.1.0"

/-- answer the arguments, with the text of the file at hand -/
def answer (request : Request) (text : String) : Outcome :=
  match request with
  | .run o => run o text
  | .help => ⟨0, helpLines, []⟩
  | .version => ⟨0, [versionLine], []⟩
  | .usage => ⟨2, [], [usageLine]⟩

end ModelCount.CommandLine
