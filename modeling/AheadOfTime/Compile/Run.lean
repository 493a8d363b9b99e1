import AheadOfTime.Compile.Listing
import AheadOfTime.Scan.Run

/-!
# Compiling

A compilation scans the program and then marks once more what is needed, now knowing of which types
objects exist, and makes code for every method that is needed.  A method for which that fails
becomes a stub, unless it is a required root.
-/

set_option autoImplicit false

namespace AheadOfTime

open Marking

/-- A compilation. -/
structure Compilation where
  /-- The program. -/
  program : Program
  /-- The roots. -/
  roots : List Root
  /-- The options. -/
  options : Options := {}
  /-- How code is made. -/
  generator : Generator := .listing
  /-- Whether it can be stopped, and was asked to. -/
  cancelled : Option Bool := none
  /-- What symbols start with. -/
  lead : String := Symbol.defaultLead

/-- A compilation of which parts may be missing. -/
structure CompilationDraft where
  /-- The program; without one there are no bodies. -/
  program : Option Program := none
  /-- The roots, or why there are none. -/
  roots : Option (Except Diagnostic (List Root)) := none
  /-- The options. -/
  options : Options := {}
  /-- How code is made. -/
  generator : Generator := .listing
  /-- Whether it can be stopped, and was asked to. -/
  cancelled : Option Bool := none
  /-- What symbols start with. -/
  lead : String := Symbol.defaultLead

/-- The compilation, if no part is missing. -/
def CompilationDraft.finish (d : CompilationDraft) : Except Diagnostic Compilation :=
  match d.program, d.roots with
  | none, _ => .error (.other "no method body provider configured")
  | some _, none => .error (.other "no root provider configured")
  | some _, some (.error error) => .error error
  | some program, some (.ok roots) =>
    .ok { program, roots, options := d.options, generator := d.generator,
          cancelled := d.cancelled, lead := d.lead }

/-- A method that was compiled. -/
structure CompiledMethod where
  /-- The method. -/
  method : Method
  /-- The symbol of its code. -/
  symbol : String
  /-- Its code. -/
  code : Code
  /-- Whether the code is only a stub, as none could be made. -/
  isStub : Bool
deriving DecidableEq, Repr

/-- A method that could not be compiled. -/
structure MethodFailure where
  /-- The method. -/
  method : Method
  /-- Why. -/
  error : Diagnostic
deriving DecidableEq, Repr

/-- The name under which a failure is listed. -/
def MethodFailure.name (f : MethodFailure) : String :=
  f.method.displayName

/-- The result of a compilation. -/
structure Compiled where
  /-- The methods, by symbol. -/
  methods : List CompiledMethod
  /-- The methods that became stubs, by name. -/
  failures : List MethodFailure
  /-- What was marked. -/
  graph : NodeGraph
  /-- The setting in which it was marked. -/
  setting : Setting

namespace Compiled

/-- How the calls and casts of a method are carried out. -/
def sites (c : Compiled) (m : Method) : Tracked (List Site) := do
  match ← (c.setting.importCode m).run with
  | .ok imported => pure imported.sites
  | .error _ => pure []

/-- The compiled form of a method. -/
def method? (c : Compiled) (m : Method) : Option CompiledMethod :=
  c.methods.find? (·.method == m)

/-- The data for reflection: a line for each thing that can be reflected on, in order. -/
def metadata (c : Compiled) : String :=
  let entries := c.graph.nodes.toList.filter (·.kind = .reflection)
  let lines := (entries.map Node.describe).mergeSort fun a b => !(b < a : Bool)
  String.join (lines.eraseReps.map (· ++ "\n"))

end Compiled

/-- Methods by symbol; of those with the same symbol, the last one. -/
def latestBySymbol (l : List CompiledMethod) : List CompiledMethod :=
  keepLast (l.mergeSort fun a b => !(b.symbol < a.symbol : Bool))
where
  /-- Drops everything that has the same symbol as its successor. -/
  keepLast : List CompiledMethod → List CompiledMethod
    | [] => []
    | [a] => [a]
    | a :: b :: rest =>
      if a.symbol = b.symbol then keepLast (b :: rest) else a :: keepLast (b :: rest)

namespace Compilation

/-- The scan that comes first. -/
def scan (C : Compilation) (fuel : Nat) : Attempt (Option Scan) :=
  C.program.scan fuel C.options C.roots C.cancelled

/-- Makes the code of a method. -/
def generate (C : Compilation) (s : Sealing) (m : Method) :
    Tracked (CompiledMethod × Option MethodFailure) := do
  let symbol := m.symbol C.lead
  let failed (error : Diagnostic) : CompiledMethod × Option MethodFailure :=
    (⟨m, symbol, .trap, true⟩, some ⟨m, error⟩)
  match C.program.body? m with
  | none => pure (failed (.bodyNotAvailable m.displayName))
  | some body =>
    match ← (C.generator C.program s m body).run with
    | .ok code => pure (⟨m, symbol, code, false⟩, none)
    | .error text => pure (failed (.codeGeneration m.displayName text))

/-- A method whose code is needed though the scan did not reach it. -/
def missedBy? (graph : NodeGraph) (scan : Scan) : Option Method :=
  graph.nodes.toList.findSome? fun n =>
    match n with
    | .code m => if scan.graph.isMarked n then none else some m
    | _ => none

/-- The methods for which there has to be code. -/
def requiredMethods (roots : List Root) : List Method :=
  roots.filterMap fun r =>
    match r.kind with
    | .method m => if r.required then some m else none
    | _ => none

/-- Compiles what a scan found.  There is no answer if the fuel runs out. -/
def compile (C : Compilation) (fuel : Nat) (scan : Scan) : Attempt (Option Compiled) := do
  let sealing ← liftM (scan.sealing C.program)
  let S : Setting := { program := C.program, options := C.options, sealing }
  match ← S.analyze fuel scan.roots C.cancelled with
  | none => pure none
  | some graph =>
    if C.options.verifyScan then
      if let some m := missedBy? graph scan then throw (.scannerMismatch m.displayName)
    let required ← (requiredMethods scan.roots).mapM fun m => liftM (S.codeOwner m)
    let methods := graph.nodes.toList.filterMap fun
      | .code m => some m
      | _ => none
    let outcomes ← methods.mapM fun m => liftM (C.generate sealing m)
    let failures := (outcomes.filterMap (·.2)).mergeSort fun a b => !(b.name < a.name : Bool)
    match failures.find? fun f => required.contains f.method with
    | some fatal =>
      let stubbed := failures.filter fun f => !required.contains f.method
      throw (.compilationFailed fatal.error (stubbed.map (·.name)))
    | none =>
      pure (some { methods := latestBySymbol (outcomes.map (·.1)), failures, graph, setting := S })

/-- Scans, then compiles. -/
def run (C : Compilation) (fuel : Nat) : Attempt (Option Compiled) := do
  match ← C.scan fuel with
  | none => pure none
  | some scan => C.compile fuel scan

end Compilation

end AheadOfTime
