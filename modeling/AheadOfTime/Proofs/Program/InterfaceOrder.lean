import AheadOfTime.Proofs.Program.Interfaces
import AheadOfTime.Proofs.Program.SlotTable
import Mathlib.Data.List.Forall2
import Mathlib.Data.Set.Finite.Basic

/-!
# The order of inherited interfaces

`Program.closeInterfaces` keeps the interfaces that it still has to look at on a stack.  The order in
which it finds them can be said without a stack: each interface is followed by all that it leads to
before its next sibling has its turn, and is left out if it came up before.  This is `DepthFirst`, and
it makes sense for interfaces that inherit each other in a circle too.

There is one such order if only finitely many interfaces are inherited, it has each of them once, and
the search takes one step for every entry of the lists on the way.  How many steps walks are limited to
does not matter beyond that.
-/

set_option autoImplicit false

namespace AheadOfTime

open Relation (TransGen ReflTransGen)

/-! ## Depth-first order -/

section DepthFirst

variable {α : Type} {next : α → List α}

/-- Going through a list, each element is followed by those that it leads to; what came up before is
left out.  The last list has what is new. -/
inductive DepthFirst (next : α → List α) : List α → List α → List α → Prop
  | nil (seen : List α) : DepthFirst next seen [] []
  | again {seen rest found : List α} {a : α} : a ∈ seen → DepthFirst next seen rest found →
      DepthFirst next seen (a :: rest) found
  | first {seen rest below after : List α} {a : α} : a ∉ seen →
      DepthFirst next (seen ++ [a]) (next a) below →
      DepthFirst next (seen ++ a :: below) rest after →
      DepthFirst next seen (a :: rest) (a :: (below ++ after))

namespace DepthFirst

variable {seen listed found found' : List α}

/-- What is found is new, and nothing is found twice. -/
theorem nodup_append (h : DepthFirst next seen listed found) (hseen : seen.Nodup) :
    (seen ++ found).Nodup := by
  induction h with
  | nil seen => rwa [List.append_nil]
  | again _ _ ih => exact ih hseen
  | @first seen rest below after a ha _ _ ihbelow ihafter =>
    have hconcat := hseen.concat ha
    rw [List.concat_eq_append] at hconcat
    have hbelow := ihbelow hconcat
    rw [List.append_assoc, List.singleton_append] at hbelow
    have hafter := ihafter hbelow
    rwa [List.append_assoc, List.cons_append] at hafter

/-- What is found is reached from the list. -/
theorem exists_of_mem (h : DepthFirst next seen listed found) :
    ∀ b ∈ found, ∃ a ∈ listed, ReflTransGen (fun a b => b ∈ next a) a b := by
  induction h with
  | nil seen => exact List.forall_mem_nil _
  | again _ _ ih =>
    intro b hb
    obtain ⟨a, ha, hreach⟩ := ih b hb
    exact ⟨a, List.mem_cons_of_mem _ ha, hreach⟩
  | @first seen rest below after a _ _ _ ihbelow ihafter =>
    refine List.forall_mem_cons.2 ⟨⟨a, List.mem_cons_self, .refl⟩, List.forall_mem_append.2 ⟨?_, ?_⟩⟩
    · intro b hb
      obtain ⟨c, hc, hreach⟩ := ihbelow b hb
      exact ⟨a, List.mem_cons_self, .head hc hreach⟩
    · intro b hb
      obtain ⟨c, hc, hreach⟩ := ihafter b hb
      exact ⟨c, List.mem_cons_of_mem _ hc, hreach⟩

/-- Whatever is listed was seen or is found, and so is whatever that leads to which is found. -/
theorem closed (h : DepthFirst next seen listed found) :
    (∀ a ∈ listed, a ∈ seen ++ found) ∧ ∀ a ∈ found, ∀ b ∈ next a, b ∈ seen ++ found := by
  induction h with
  | nil seen => exact ⟨List.forall_mem_nil _, List.forall_mem_nil _⟩
  | again ha _ ih => exact ⟨List.forall_mem_cons.2 ⟨List.mem_append_left _ ha, ih.1⟩, ih.2⟩
  | @first seen rest below after a _ _ _ ihbelow ihafter =>
    -- what is seen or found below `a` stays so after it
    have hkept : ∀ b, b ∈ seen ++ [a] ++ below → b ∈ seen ++ a :: (below ++ after) := by
      intro b hb
      rw [List.append_assoc, List.singleton_append] at hb
      rw [← List.cons_append, ← List.append_assoc]
      exact List.mem_append_left _ hb
    have hsame : ∀ b, b ∈ seen ++ a :: below ++ after → b ∈ seen ++ a :: (below ++ after) := by
      intro b hb
      rwa [List.append_assoc, List.cons_append] at hb
    refine ⟨List.forall_mem_cons.2 ⟨?_, fun b hb => hsame b (ihafter.1 b hb)⟩, ?_⟩
    · exact List.mem_append_right _ List.mem_cons_self
    · refine List.forall_mem_cons.2 ⟨fun b hb => hkept b (ihbelow.1 b hb), ?_⟩
      refine List.forall_mem_append.2 ⟨fun b hb c hc => ?_, fun b hb c hc => ?_⟩
      · exact hkept c (ihbelow.2 b hb c hc)
      · exact hsame c (ihafter.2 b hb c hc)

/-- There is one depth-first order only. -/
theorem unique (h : DepthFirst next seen listed found) (h' : DepthFirst next seen listed found') :
    found = found' := by
  induction h generalizing found' with
  | nil seen =>
    cases h'
    rfl
  | again ha _ ih =>
    cases h' with
    | again _ h' => exact ih h'
    | first hnew _ _ => exact absurd ha hnew
  | first hnew _ _ ihbelow ihafter =>
    cases h' with
    | again ha _ => exact absurd ha hnew
    | first _ hbelow hafter =>
      obtain rfl := ihbelow hbelow
      obtain rfl := ihafter hafter
      rfl

end DepthFirst

/-- There is a depth-first order if what can come up is among finitely many elements.  Every element
that is found leaves fewer of them. -/
theorem exists_depthFirst [DecidableEq α] {T : α → Prop} (hT : ∀ a, T a → ∀ b ∈ next a, T b)
    (seen unseen listed : List α) (hunseen : ∀ a, T a → a ∈ seen ∨ a ∈ unseen)
    (hlisted : ∀ a ∈ listed, T a) : ∃ found, DepthFirst next seen listed found := by
  match listed, hlisted with
  | [], _ => exact ⟨[], .nil seen⟩
  | a :: rest, hlisted =>
    obtain ⟨ha, hrest⟩ := List.forall_mem_cons.1 hlisted
    by_cases hseen : a ∈ seen
    · obtain ⟨found, hfound⟩ := exists_depthFirst hT seen unseen rest hunseen hrest
      exact ⟨found, .again hseen hfound⟩
    · have hmem := (hunseen a ha).resolve_left hseen
      have hlength := List.length_erase_of_mem hmem
      have hpos := List.length_pos_of_mem hmem
      have hfewer : ∀ below b, T b → b ∈ seen ++ a :: below ∨ b ∈ unseen.erase a := by
        intro below b hb
        by_cases hba : b = a
        · rw [hba]
          exact .inl (List.mem_append_right _ List.mem_cons_self)
        · rcases hunseen b hb with hb | hb
          · exact .inl (List.mem_append_left _ hb)
          · exact .inr ((List.mem_erase_of_ne hba).2 hb)
      obtain ⟨below, hbelow⟩ :=
        exists_depthFirst hT (seen ++ [a]) (unseen.erase a) (next a) (hfewer []) (hT a ha)
      obtain ⟨after, hafter⟩ :=
        exists_depthFirst hT (seen ++ a :: below) (unseen.erase a) rest (hfewer below) hrest
      exact ⟨a :: (below ++ after), .first hseen hbelow hafter⟩
termination_by (unseen.length, listed.length)

end DepthFirst

/-! ## Searching for interfaces -/

namespace Program

variable {P : Program} {t : Ty}

/-- The interfaces that a type lists. -/
def listing (P : Program) (t : Ty) : List Ty :=
  (P.interfacesOf t).value

/-- The search goes through a list, and finds what is new in depth-first order, before it comes to what
else is on the stack.  It takes a step for each entry of the list and of the lists of what it finds. -/
theorem value_closeInterfaces_append {seen listed found : List Ty}
    (h : DepthFirst P.listing seen listed found) {r : Roster Ty} (hr : r.toList = seen) (n : Nat)
    (stack : List Ty) :
    (P.closeInterfaces (listed.length + (P.listedBy found).length + n) (listed ++ stack) r).value =
      (P.closeInterfaces n stack (r.insertAll found)).value := by
  induction h generalizing r n stack with
  | nil seen =>
    rw [listedBy, List.flatMap_nil, List.length_nil, Nat.zero_add]
    rfl
  | @again seen rest found a ha _ ih =>
    have hsteps : (a :: rest).length + (P.listedBy found).length + n =
        rest.length + (P.listedBy found).length + n + 1 := by
      rw [List.length_cons]
      omega
    rw [hsteps, List.cons_append, value_closeInterfaces_cons, if_pos (by rwa [hr]), ih hr]
  | @first seen rest below after a ha hbelow _ ihbelow ihafter =>
    -- one step is for `a`; what it lists is put on the stack before the rest
    have hsteps : (a :: rest).length + (P.listedBy (a :: (below ++ after))).length + n =
        (P.listing a).length + (P.listedBy below).length +
          (rest.length + (P.listedBy after).length + n) + 1 := by
      simp only [listedBy, List.flatMap_cons, List.flatMap_append, List.length_append,
        List.length_cons, listing]
      omega
    have hinsert : (r.insert a).toList = seen ++ [a] := by
      rw [r.toList_insert_of_not_mem a (by rwa [hr]), hr]
    have hnodup := (r.insert a).nodup_toList
    rw [hinsert] at hnodup
    have hbelowList : ((r.insert a).insertAll below).toList = seen ++ a :: below := by
      rw [Roster.toList_insertAll_of_nodup (by rw [hinsert]; exact hbelow.nodup_append hnodup),
        hinsert, List.append_assoc, List.singleton_append]
    calc (P.closeInterfaces ((a :: rest).length + (P.listedBy (a :: (below ++ after))).length + n)
          (a :: rest ++ stack) r).value
        = (P.closeInterfaces ((P.listing a).length + (P.listedBy below).length +
            (rest.length + (P.listedBy after).length + n)) (P.listing a ++ (rest ++ stack))
            (r.insert a)).value := by
          rw [hsteps, List.cons_append, value_closeInterfaces_cons, if_neg (by rwa [hr]), listing]
      _ = (P.closeInterfaces (rest.length + (P.listedBy after).length + n) (rest ++ stack)
            ((r.insert a).insertAll below)).value := ihbelow hinsert _ _
      _ = (P.closeInterfaces n stack (((r.insert a).insertAll below).insertAll after)).value :=
          ihafter hbelowList _ _
      _ = (P.closeInterfaces n stack (r.insertAll (a :: (below ++ after)))).value := by
          rw [← Roster.insertAll_append]
          rfl

/-- All interfaces that a type inherits, each of them once and in depth-first order. -/
structure InterfaceOrder (P : Program) (t : Ty) (l : List Ty) : Prop where
  nodup : l.Nodup
  mem_iff : ∀ i, i ∈ l ↔ P.Inherits t i
  depthFirst : DepthFirst P.listing [] (P.listing t) l

/-- What is found in depth-first order is what is inherited. -/
theorem interfaceOrder_of_depthFirst {l : List Ty} (h : DepthFirst P.listing [] (P.listing t) l) :
    P.InterfaceOrder t l where
  nodup := h.nodup_append List.nodup_nil
  mem_iff i := by
    constructor
    · intro hi
      obtain ⟨j, hj, hreach⟩ := h.exists_of_mem i hi
      exact TransGen.head' hj hreach
    · intro hi
      obtain ⟨hlisted, hclosed⟩ := h.closed
      induction hi with
      | single hi => exact hlisted _ hi
      | tail _ hi ih => exact hclosed _ ih _ hi
  depthFirst := h

/-- There is an order if finitely many interfaces are inherited, also if they inherit each other. -/
theorem exists_interfaceOrder (h : {i | P.Inherits t i}.Finite) : ∃ l, P.InterfaceOrder t l := by
  obtain ⟨all, hall⟩ := h.exists_finset
  have hunseen : ∀ i, P.Inherits t i → i ∈ ([] : List Ty) ∨ i ∈ all.toList :=
    fun i hi => .inr (Finset.mem_toList.2 ((hall i).2 hi))
  obtain ⟨l, hl⟩ := exists_depthFirst (fun i (hi : P.Inherits t i) j hj => hi.tail hj) []
    all.toList (P.listing t) hunseen fun i hi => .single hi
  exact ⟨l, interfaceOrder_of_depthFirst hl⟩

namespace InterfaceOrder

variable {l : List Ty}

/-- If the limit leaves enough steps, the interfaces of a type are found in depth-first order. -/
theorem value_interfaceClosure (h : P.InterfaceOrder t l)
    (hsteps : (P.listedBy (t :: l)).length ≤ P.walkLimit) : (P.interfaceClosure t).value = l := by
  rw [listedBy, List.flatMap_cons, List.length_append] at hsteps
  obtain ⟨n, hn⟩ := Nat.exists_eq_add_of_le hsteps
  have hclose := value_closeInterfaces_append h.depthFirst (r := .empty) rfl n []
  rw [Program.value_interfaceClosure, hn]
  rw [List.append_nil] at hclose
  refine (congrArg Roster.toList hclose).trans ?_
  have hend : (P.closeInterfaces n [] (Roster.empty.insertAll l)).value = Roster.empty.insertAll l := by
    cases n <;> rfl
  rw [hend, Roster.toList_insertAll_of_nodup (by simpa using h.nodup)]
  rfl

end InterfaceOrder

/-! ## How far walks go -/

/-- The same program, in which walks have another limit. -/
def withLimit (P : Program) (n : Nat) : Program :=
  { P with walkLimit := n }

/-- A walk of given length does not depend on the limit. -/
theorem chain_withLimit (k n : Nat) (t : Ty) : (P.withLimit k).chain n t = P.chain n t := by
  have hbase : ∀ u, (P.withLimit k).baseType u = P.baseType u := fun _ => rfl
  induction n generalizing t with
  | zero => rfl
  | succ n ih =>
    rw [chain, chain, hbase]
    cases (P.baseType t).value with
    | none => rfl
    | some b => exact congrArg (t :: ·) (ih b)

/-- The order of interfaces does not depend on the limit. -/
theorem InterfaceOrder.withLimit {l : List Ty} (h : P.InterfaceOrder t l) (n : Nat) :
    (P.withLimit n).InterfaceOrder t l :=
  ⟨h.nodup, h.mem_iff, h.depthFirst⟩

/-- Whatever limit walks have, from some number of steps on a closure is the whole order. -/
theorem InterfaceOrder.value_interfaceClosure_withLimit {l : List Ty} (h : P.InterfaceOrder t l)
    {k : Nat} (hk : (P.listedBy (t :: l)).length ≤ k) :
    ((P.withLimit k).interfaceClosure t).value = l :=
  (h.withLimit k).value_interfaceClosure hk

/-- All interfaces of a type are those along its chain, each where it comes up first. -/
theorem value_allInterfaces (t : Ty) : (P.allInterfaces t).value =
    ((P.chain P.walkLimit t).map fun u => (P.interfaceClosure u).value).flatten.eraseDups := by
  simp only [allInterfaces, Recorded.value_bind, Recorded.value_pure, value_collectUp]
  exact Roster.toList_foldl_insertAll _

/-- The closures of finitely many types need finitely many steps. -/
theorem exists_closures {ts : List Ty} (h : ∀ u ∈ ts, {i | P.Inherits u i}.Finite) :
    ∃ closures, List.Forall₂ P.InterfaceOrder ts closures ∧
      ∃ n, ∀ k ≥ n, (ts.map fun u => ((P.withLimit k).interfaceClosure u).value) = closures := by
  induction ts with
  | nil => exact ⟨[], .nil, 0, fun _ _ => rfl⟩
  | cons t ts ih =>
    obtain ⟨ht, hts⟩ := List.forall_mem_cons.1 h
    obtain ⟨l, hl⟩ := exists_interfaceOrder ht
    obtain ⟨closures, hclosures, n, hn⟩ := ih hts
    refine ⟨l :: closures, .cons hl hclosures, max (P.listedBy (t :: l)).length n, fun k hk => ?_⟩
    rw [List.map_cons, hl.value_interfaceClosure_withLimit (le_trans (le_max_left _ _) hk),
      hn k (le_trans (le_max_right _ _) hk)]

/-- A type that inherits finitely many interfaces, be it in circles, has a closure as soon as walks are
not limited to fewer steps than there are entries in the lists on the way: all that it inherits, each
interface once and in depth-first order.  If the base types of a type come to an end, and all of them
have closures, then from some number of steps on what the type implements is what comes up in these
closures, from the type itself upwards, each interface where it comes up first. -/
theorem interfaces_in_order (P : Program) (t : Ty) :
    ({i | P.Inherits t i}.Finite → ∃ closure, P.InterfaceOrder t closure ∧
      ∀ k ≥ (P.listedBy (t :: closure)).length,
        ((P.withLimit k).interfaceClosure t).value = closure) ∧
    ∀ n, P.Ends n t → (∀ u ∈ P.chain n t, {i | P.Inherits u i}.Finite) →
      ∃ closures, List.Forall₂ P.InterfaceOrder (P.chain n t) closures ∧ ∃ steps, ∀ k ≥ steps,
        ((P.withLimit k).allInterfaces t).value = closures.flatten.eraseDups ∧
        ((P.withLimit k).allInterfaces t).value.Nodup := by
  constructor
  · intro hfinite
    obtain ⟨closure, hclosure⟩ := exists_interfaceOrder hfinite
    exact ⟨closure, hclosure, fun k hk => hclosure.value_interfaceClosure_withLimit hk⟩
  · intro n hends hfinite
    obtain ⟨closures, hclosures, steps, hsteps⟩ := exists_closures hfinite
    refine ⟨closures, hclosures, max n steps, fun k hk => ?_⟩
    have hchain : (P.withLimit k).chain (P.withLimit k).walkLimit t = P.chain n t := by
      rw [chain_withLimit]
      exact hends.chain_eq (le_trans (le_max_left _ _) hk)
    have hall : ((P.withLimit k).allInterfaces t).value = closures.flatten.eraseDups := by
      rw [value_allInterfaces, hchain, hsteps k (le_trans (le_max_right _ _) hk)]
    refine ⟨hall, ?_⟩
    simp only [allInterfaces, Recorded.value_bind, Recorded.value_pure]
    exact Roster.nodup_toList _

end Program

/-! ## Nodes that own each other -/

namespace Twigs

def visitable : TypeDecl :=
  { id := 19, space := "", name := "IVisitable", flags := { interface := true, abstract := true } }

def rooted : TypeDecl :=
  { id := 20, space := "", name := "IRooted", flags := { interface := true, abstract := true } }

def node : TypeDecl :=
  { id := 21, space := "", name := "INode", flags := { interface := true, abstract := true },
    arity := 1 }

def owner : TypeDecl :=
  { id := 22, space := "", name := "IOwner", flags := { interface := true, abstract := true },
    arity := 1 }

def branch : TypeDecl := { id := 23, space := "", name := "Branch", arity := 1 }

def twig : TypeDecl := { id := 24, space := "", name := "Twig" }

/-- A generic type with what its own parameter stands for. -/
def ofParam (d : TypeDecl) : Ty :=
  .app (.decl d) (.param .type 0)

/-- A generic type with texts. -/
def ofTexts (d : TypeDecl) : Ty :=
  .app (.decl d) (.ofWellKnown .string)

/-- Nodes are owners and owners are nodes.  A branch lists both, and a twig is a branch with texts that
lists some of what it inherits again. -/
def program : Program := .withTypes
  [TypeRecord.ofMethods visitable none [], TypeRecord.ofMethods rooted none [],
    { TypeRecord.ofMethods node none [] with
      interfaces := some [ofParam owner, .decl visitable] },
    { TypeRecord.ofMethods owner none [] with interfaces := some [ofParam node] },
    { TypeRecord.ofMethods branch (some .object) [] with
      interfaces := some [ofParam owner, .decl rooted, ofParam node] },
    { TypeRecord.ofMethods twig (some (ofTexts branch)) [] with
      interfaces := some [.decl visitable, ofTexts node] }]

/-- A node of texts is an owner, and can be visited. -/
theorem listing_node : program.listing (ofTexts node) = [ofTexts owner, .decl visitable] := by
  rw [Program.listing, program.value_interfacesOf_of_decl? (d := node) rfl]
  rfl

/-- An owner of texts is a node. -/
theorem listing_owner : program.listing (ofTexts owner) = [ofTexts node] := by
  rw [Program.listing, program.value_interfacesOf_of_decl? (d := owner) rfl]
  rfl

/-- A branch of texts is an owner, rooted and a node. -/
theorem listing_branch :
    program.listing (ofTexts branch) = [ofTexts owner, .decl rooted, ofTexts node] := by
  rw [Program.listing, program.value_interfacesOf_of_decl? (d := branch) rfl]
  rfl

/-- A twig lists again what it inherits. -/
theorem listing_twig : program.listing (.decl twig) = [.decl visitable, ofTexts node] := by
  rw [Program.listing, program.value_interfacesOf_of_decl? (d := twig) rfl]
  rfl

/-- Nodes and owners are two interfaces. -/
theorem node_ne_owner : node ≠ owner := by
  simp [owner, node]

/-- What is rooted and what can be visited are two interfaces. -/
theorem rooted_ne_visitable : rooted ≠ visitable := by
  simp [rooted, visitable]

/-- After what can be visited come nodes, and after those their owners, which lead back to nodes. -/
theorem interfaceOrder_twig : program.InterfaceOrder (.decl twig)
    [.decl visitable, ofTexts node, ofTexts owner] := by
  have howner : DepthFirst program.listing [.decl visitable, ofTexts node]
      (program.listing (ofTexts node)) [ofTexts owner] := by
    rw [listing_node]
    refine @DepthFirst.first _ _ _ _ [] [] _ ?_ ?_ (.again List.mem_cons_self (.nil _))
    · simp [node_ne_owner.symm, ofTexts]
    · rw [listing_owner]
      exact .again (.tail _ (.head _)) (.nil _)
  have hnode : DepthFirst program.listing [.decl visitable] [ofTexts node]
      [ofTexts node, ofTexts owner] :=
    @DepthFirst.first _ _ _ _ [ofTexts owner] [] _ (by simp [ofTexts]) howner (.nil _)
  refine Program.interfaceOrder_of_depthFirst ?_
  rw [listing_twig]
  exact @DepthFirst.first _ _ _ _ [] _ _ List.not_mem_nil (.nil _) hnode

/-- From a branch on, owners come first and what they lead to, and then what else is listed. -/
theorem interfaceOrder_branch : program.InterfaceOrder (ofTexts branch)
    [ofTexts owner, ofTexts node, .decl visitable, .decl rooted] := by
  have hvisitable : DepthFirst program.listing [ofTexts owner, ofTexts node]
      (program.listing (ofTexts node)) [.decl visitable] := by
    rw [listing_node]
    refine .again (.head _) (@DepthFirst.first _ _ _ _ [] [] _ ?_ (.nil _) (.nil _))
    simp [ofTexts]
  have hnode : DepthFirst program.listing [ofTexts owner] (program.listing (ofTexts owner))
      [ofTexts node, .decl visitable] := by
    rw [listing_owner]
    refine @DepthFirst.first Ty _ _ _ [.decl visitable] [] _ ?_ hvisitable (.nil _)
    simp [node_ne_owner, ofTexts]
  have hrooted : DepthFirst program.listing [ofTexts owner, ofTexts node, .decl visitable]
      [.decl rooted, ofTexts node] [.decl rooted] := by
    refine @DepthFirst.first _ _ _ _ [] [] _ ?_ (.nil _) (.again (.tail _ (.head _)) (.nil _))
    simp [ofTexts, rooted_ne_visitable]
  refine Program.interfaceOrder_of_depthFirst ?_
  rw [listing_branch]
  exact .first List.not_mem_nil hnode hrooted

/-- The root of all classes has no interfaces. -/
theorem interfaceOrder_object : program.InterfaceOrder .object [] :=
  Program.interfaceOrder_of_depthFirst (.nil _)

/-- A twig is a branch of texts. -/
theorem chain_twig : program.chain 3 (.decl twig) = [.decl twig, ofTexts branch, .object] := rfl

/-- Going up from a twig ends at the third type. -/
theorem ends_twig : program.Ends 3 (.decl twig) := by
  refine .of_base fun b hb => ?_
  cases hb
  refine .of_base fun b hb => ?_
  cases hb
  exact .of_base nofun

/-- Owners, nodes and what can be visited come up for the twig first; what is rooted does not. -/
theorem eraseDups_closures :
    [[.decl visitable, ofTexts node, ofTexts owner],
      [ofTexts owner, ofTexts node, .decl visitable, .decl rooted], []].flatten.eraseDups =
    [.decl visitable, ofTexts node, ofTexts owner, .decl rooted] := by
  simp [List.eraseDups_cons, ofTexts, node_ne_owner.symm, rooted_ne_visitable]

/-- Each type that a twig extends has finitely many interfaces, and so has the twig. -/
theorem finite_chain : ∀ u ∈ program.chain 3 (.decl twig), {i | program.Inherits u i}.Finite := by
  have hfinite : ∀ {u : Ty} {l : List Ty}, program.InterfaceOrder u l →
      {i | program.Inherits u i}.Finite :=
    fun {_ l} h => (List.finite_toSet l).subset fun i hi => (h.mem_iff i).2 hi
  rw [chain_twig]
  exact List.forall_mem_cons.2 ⟨hfinite interfaceOrder_twig, List.forall_mem_cons.2
    ⟨hfinite interfaceOrder_branch, List.forall_mem_singleton.2 (hfinite interfaceOrder_object)⟩⟩

/-- A node inherits itself.  Still what a twig lists leads to three interfaces in five steps, and what
it implements has one more, which only branches list. -/
theorem interfaces_in_order_twig :
    (program.Inherits (ofTexts node) (ofTexts node) ∧
      {i | program.Inherits (.decl twig) i}.Finite ∧ program.Ends 3 (.decl twig) ∧
      ∀ u ∈ program.chain 3 (.decl twig), {i | program.Inherits u i}.Finite) ∧
    (∀ k ≥ 5, ((program.withLimit k).interfaceClosure (.decl twig)).value =
      [.decl visitable, ofTexts node, ofTexts owner]) ∧
    ∃ steps, ∀ k ≥ steps, ((program.withLimit k).allInterfaces (.decl twig)).value =
      [.decl visitable, ofTexts node, ofTexts owner, .decl rooted] := by
  have htwig := finite_chain _ (chain_twig ▸ List.mem_cons_self)
  have hcircle : program.Inherits (ofTexts node) (ofTexts node) := by
    refine .tail (.single (b := ofTexts owner) ?_) ?_
    · show _ ∈ program.listing _
      rw [listing_node]
      exact List.mem_cons_self
    · show _ ∈ program.listing _
      rw [listing_owner]
      exact List.mem_cons_self
  obtain ⟨hclosure, hall⟩ := program.interfaces_in_order (.decl twig)
  refine ⟨⟨hcircle, htwig, ends_twig, finite_chain⟩, ?_, ?_⟩
  · obtain ⟨closure, horder, hvalue⟩ := hclosure htwig
    obtain rfl := horder.depthFirst.unique interfaceOrder_twig.depthFirst
    have hsteps : (program.listedBy [.decl twig, .decl visitable, ofTexts node, ofTexts owner]).length
        = 5 := by
      show (program.listing _ ++ (program.listing _ ++ (program.listing _ ++
        (program.listing _ ++ [])))).length = 5
      rw [listing_twig, listing_node, listing_owner]
      rfl
    rwa [hsteps] at hvalue
  · obtain ⟨closures, horders, steps, hvalue⟩ := hall 3 ends_twig finite_chain
    refine ⟨steps, fun k hk => (hvalue k hk).1.trans ?_⟩
    rw [chain_twig] at horders
    cases horders with
    | cons h₁ horders =>
      cases horders with
      | cons h₂ horders =>
        cases horders with
        | cons h₃ horders =>
          cases horders
          obtain rfl := h₁.depthFirst.unique interfaceOrder_twig.depthFirst
          obtain rfl := h₂.depthFirst.unique interfaceOrder_branch.depthFirst
          obtain rfl := h₃.depthFirst.unique interfaceOrder_object.depthFirst
          exact eraseDups_closures

end Twigs

end AheadOfTime
