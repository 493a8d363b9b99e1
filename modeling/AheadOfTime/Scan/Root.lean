import AheadOfTime.Scan.Setting

/-!
# Roots

Where a scan starts.
-/

set_option autoImplicit false

namespace AheadOfTime

/-- What is kept. -/
inductive RootKind where
  /-- The code of a method. -/
  | method (m : Method)
  /-- Objects of a type. -/
  | constructed (t : Ty)
  /-- A type that is reflected on; objects of it too, if there can be any. -/
  | reflectedType (t : Ty)
  /-- A method that is reflected on; its code too, if it has any. -/
  | reflectedMethod (m : Method)
deriving DecidableEq, Repr

/-- A root. -/
structure Root where
  /-- What is kept. -/
  kind : RootKind
  /-- Whether everything fails if the root does. -/
  required : Bool := true
  /-- Why it is kept. -/
  reason : String
deriving DecidableEq, Repr

/-- The nodes that a root stands for. -/
def Setting.rootNodes (S : Setting) : RootKind → Attempt (List Node)
  | .method m => do
    if m.isOpen then refuse (.openRoot m)
    else
      let n ← liftM (S.codeNode m)
      pure [n]
  | .constructed t => do
    if t.isOpen || t.isAbstract then refuse (.unallocatableRoot t) else pure [.constructed t]
  | .reflectedType t =>
    pure (.reflection (.type t) ::
      if !t.isOpen && !t.isAbstract then [.constructed t] else [])
  | .reflectedMethod m => do
    if !m.isOpen && !m.isAbstract then
      let n ← liftM (S.codeNode m)
      pure [.reflection (.method m), n]
    else pure [.reflection (.method m)]

end AheadOfTime
