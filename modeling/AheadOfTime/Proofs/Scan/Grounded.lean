import AheadOfTime.Proofs.Program.Grounded
import AheadOfTime.Proofs.Scan.Vocabulary

/-!
# A scan stays within its program

If a program mentions only what it declares, and so do the roots, then everything that is marked is
declared by the program.
-/

set_option autoImplicit false

namespace AheadOfTime

open Marking

namespace Program

/-- A node that is about what a program has. -/
def HasNode (P : Program) : Node → Prop
  | .constructed t | .typeData t | .statics t => P.HasType t
  | .code m | .shadow m | .slot m => P.HasMethod m
  | .reflection (.type t) => P.HasType t
  | .reflection (.method m) => P.HasMethod m
  | .reflection (.field f) => P.HasDecl f.owner

/-- A root that is about what a program has. -/
def HasRoot (P : Program) : RootKind → Prop
  | .method m | .reflectedMethod m => P.HasMethod m
  | .constructed t | .reflectedType t => P.HasType t

variable {P : Program}

/-- What is spelled with the declarations of a program is what the program has. -/
theorem nodeVocabulary_eq : (P.alphabet.nodeVocabulary P.Declares fun f => P.HasDecl f.owner) =
    ⟨⟨P.HasType, P.HasMethod⟩, P.HasType, fun f => P.HasDecl f.owner, P.HasMethod, P.HasMethod,
      P.HasMethod⟩ := by
  simp only [Alphabet.nodeVocabulary, vocabulary_eq]

/-- The nodes that are spelled with the declarations of a program are about what it has. -/
theorem hasNode_iff {n : Node} :
    (P.alphabet.nodeVocabulary P.Declares fun f => P.HasDecl f.owner).HasNode n ↔ P.HasNode n := by
  rw [nodeVocabulary_eq]
  cases n with
  | reflection r => cases r <;> exact Iff.rfl
  | _ => exact Iff.rfl

/-- The roots that are spelled with the declarations of a program are about what it has. -/
theorem hasRoot_iff {k : RootKind} :
    (P.alphabet.nodeVocabulary P.Declares fun f => P.HasDecl f.owner).HasRoot k ↔ P.HasRoot k := by
  rw [nodeVocabulary_eq]
  cases k <;> exact Iff.rfl

/-- The instructions that are spelled with the declarations of a program refer to what it has. -/
theorem hasInstruction_iff {i : Instruction} :
    (P.alphabet.nodeVocabulary P.Declares fun f => P.HasDecl f.owner).HasInstruction i ↔
      i.Within P := by
  rw [nodeVocabulary_eq]
  cases i with
  | ldtoken t => cases t <;> exact Iff.rfl
  | _ => exact Iff.rfl

end Program

namespace Setting

variable {S : Setting}

/-- Nothing leads out of what a program has. -/
theorem covers_of_grounded (hP : S.program.Grounded) :
    (S.program.alphabet.nodeVocabulary S.program.Declares fun f =>
      S.program.HasDecl f.owner).Covers S :=
  hP.describes.covers_nodeVocabulary trivial (by simp [Program.alphabet, Alphabet.formed])
    (fun _ => Program.Declares.canonical) (fun _ hf => hf)
    fun hbody i hi => Program.hasInstruction_iff.2 (hP.bodies _ _ hbody i hi)

/-- All that a scan marks is about what the program has, if declarations, bodies and roots are. -/
theorem hasNode_of_isMarked (hP : S.program.Grounded) {roots : List Root}
    (hroots : ∀ r ∈ roots, S.program.HasRoot r.kind) {g : NodeGraph} (hg : S.FixedPoint roots g)
    {n : Node} (hn : g.isMarked n = true) : S.program.HasNode n := by
  have hV := covers_of_grounded hP
  refine Program.hasNode_iff.1 (hg.hasNode hV ?_ (fun _ hm _ ht _ => hV.genericOverride hm ht) hn)
  exact fun r hr => Program.hasRoot_iff.2 (hroots r hr)

end Setting

end AheadOfTime
