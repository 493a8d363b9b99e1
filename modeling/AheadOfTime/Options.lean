/-!
# Compilation options
-/

set_option autoImplicit false

namespace AheadOfTime

/-- What a scan and a compilation can be told. -/
structure Options where
  /-- The deepest instantiation that is accepted. -/
  maxDepth : Nat := 30
  /-- One body is compiled for each canonical form, rather than one for each instantiation. -/
  sharedGenerics : Bool := true
  /-- Everything is done on the calling thread. -/
  singleThreaded : Bool := false
  /-- A compilation fails if it reaches a method that the scan did not reach. -/
  verifyScan : Bool := true
deriving DecidableEq, Repr

namespace Options

/-- Options that keep all work on the calling thread. -/
def onOneThread : Options := { singleThreaded := true }

/-- Options that compile every instantiation by itself. -/
def unshared : Options := { sharedGenerics := false }

end Options

end AheadOfTime
