/-!
# Diagnostics

What can go wrong, from a malformed request to a failed compilation, and the text that reports it.
-/

set_option autoImplicit false

namespace AheadOfTime

/-- A place in a source text. -/
structure Position where
  /-- The file. -/
  file : String
  /-- The line in it. -/
  line : Nat
deriving DecidableEq, Repr

/-- Why an operation did not succeed. -/
inductive Diagnostic where
  /-- The declarations of a type contradict each other. -/
  | typeLoad (position : Option Position) (text : String)
  /-- A request about types or methods was malformed. -/
  | typeError (text : String)
  /-- A body refers to something that does not exist. -/
  | unresolvedReference (symbol referrer : String)
  /-- An instantiation is nested deeper than accepted. -/
  | genericTooDeep (entity : String) (depth limit : Nat)
  /-- A method that has to be compiled has no body. -/
  | bodyNotAvailable (method : String)
  /-- No code could be generated for a method. -/
  | codeGeneration (method text : String)
  /-- A method that had to be compiled could not be; `stubbed` names the others that failed. -/
  | compilationFailed (cause : Diagnostic) (stubbed : List String)
  /-- The compilation reached a method that the scan did not reach. -/
  | scannerMismatch (method : String)
  /-- The run was asked to stop. -/
  | cancelled
  /-- Anything else. -/
  | other (text : String)
deriving DecidableEq, Repr

namespace Diagnostic

/-- The text of a diagnostic. -/
def message : Diagnostic → String
  | typeLoad (some p) text => "TypeLoad - " ++ p.file ++ ":" ++ Nat.repr p.line ++ ": " ++ text
  | typeLoad none text => "TypeLoad: " ++ text
  | typeError text => text
  | unresolvedReference symbol referrer =>
    "Unresolved reference to '" ++ symbol ++ "' from '" ++ referrer ++ "'"
  | genericTooDeep entity depth limit =>
    "Recursive generic too deep: '" ++ entity ++ "' has depth " ++ Nat.repr depth ++
      ", limit is " ++ Nat.repr limit
  | bodyNotAvailable method => "No method body available for '" ++ method ++ "'"
  | codeGeneration method text => "Code generation failed for '" ++ method ++ "': " ++ text
  | compilationFailed cause stubbed =>
    "Compilation failed: " ++ cause.message ++ " (" ++ Nat.repr stubbed.length ++
      " non-fatal method failures)"
  | scannerMismatch method =>
    "Compile pass reached '" ++ method ++ "' which the scanner did not mark"
  | cancelled => "Compilation was cancelled"
  | other text => text

/-- The name of the kind of a diagnostic. -/
def kind : Diagnostic → String
  | typeLoad _ _ => "TypeLoad"
  | typeError _ => "TypeError"
  | unresolvedReference _ _ => "UnresolvedReference"
  | genericTooDeep _ _ _ => "RecursiveGenericTooDeep"
  | bodyNotAvailable _ => "MethodBodyNotAvailable"
  | codeGeneration _ _ => "CodeGeneration"
  | compilationFailed _ _ => "CompilationFailed"
  | scannerMismatch _ => "ScannerMismatch"
  | cancelled => "Cancelled"
  | other _ => "Error"

/-- Whether a run ends when this arises at a node that is no root. -/
def isFatal : Diagnostic → Bool
  | bodyNotAvailable _ => false
  | codeGeneration _ _ => false
  | _ => true

end Diagnostic

end AheadOfTime
