import ScriptIr.Lower.Function

/-!
# Nesting of functions

The function declarations, function expressions and arrow functions of a tree, each with those that
stand directly in it. In a list of statements the declared functions come first, as they are made
before the other statements run. Initial values in the head of a loop over elements, which no parser
makes, are not looked at.
-/
namespace ScriptIr.Tree

open List

open Lower (FunctionKind)

/-- A function and the functions that stand directly in it. -/
inductive Nest where
  | mk (kind : FunctionKind) (name : String) (inner : List Nest)

namespace Nest

mutual

/-- The number of functions, the outermost included. -/
def size : Nest → Nat
  | mk _ _ inner => 1 + sizes inner

/-- The number of functions in several nests. -/
def sizes : List Nest → Nat
  | [] => 0
  | n :: ns => n.size + sizes ns

end

mutual

/-- The names of the functions, from the outside to the inside. -/
def names : Nest → List String
  | mk _ name inner => name :: namesOf inner

def namesOf : List Nest → List String
  | [] => []
  | n :: ns => n.names ++ namesOf ns

end

mutual

theorem length_names (n : Nest) : n.names.length = n.size := by
  obtain ⟨kind, name, inner⟩ := n
  rw [names, length_cons, length_namesOf, size, Nat.add_comm]

theorem length_namesOf (ns : List Nest) : (namesOf ns).length = sizes ns := by
  match ns with
  | [] => rfl
  | n :: ns => rw [namesOf, length_append, length_names, length_namesOf, sizes]

end

theorem namesOf_append (ms ns : List Nest) : namesOf (ms ++ ns) = namesOf ms ++ namesOf ns := by
  induction ms with
  | nil => rfl
  | cons m ms ih => simp [namesOf, ih]

/-- A function, by its number, that makes a closure of another one. -/
structure Link where
  host : Nat
  kind : FunctionKind
  target : Nat
  deriving DecidableEq, Repr

mutual

/-- Who makes a closure of whom in a nest that stands in function `host`, if its outermost function has
the number `start` and those inside follow. -/
def links (host start : Nat) : Nest → List Link
  | mk kind _ inner => ⟨host, kind, start⟩ :: linksOf start (start + 1) inner

/-- Who makes a closure of whom in nests that stand in one function, one after the other. -/
def linksOf (host start : Nat) : List Nest → List Link
  | [] => []
  | n :: ns => n.links host start ++ linksOf host (start + n.size) ns

end

theorem linksOf_append (host start : Nat) (ms ns : List Nest) :
    linksOf host start (ms ++ ns) = linksOf host start ms ++ linksOf host (start + sizes ms) ns := by
  induction ms generalizing start with
  | nil => simp [linksOf, sizes]
  | cons m ms ih => simp [linksOf, sizes, ih, Nat.add_assoc]

mutual

theorem targets_links (host start : Nat) (n : Nest) :
    (n.links host start).map (·.target) = range' start n.size := by
  obtain ⟨kind, name, inner⟩ := n
  rw [links, map_cons, targets_linksOf, size, Nat.add_comm 1, range'_succ]

theorem targets_linksOf (host start : Nat) (ns : List Nest) :
    (linksOf host start ns).map (·.target) = range' start (sizes ns) := by
  match ns with
  | [] => rfl
  | n :: ns =>
    rw [linksOf, map_append, targets_links, targets_linksOf, sizes, range'_append_1]

end

mutual

theorem host_lt_target (host start : Nat) (n : Nest) (h : host < start) :
    ∀ l ∈ n.links host start, l.host < l.target := by
  obtain ⟨kind, name, inner⟩ := n
  rw [links]
  exact forall_mem_cons.mpr ⟨h, host_lt_target_of start (start + 1) inner (Nat.lt_succ_self _)⟩

theorem host_lt_target_of (host start : Nat) (ns : List Nest) (h : host < start) :
    ∀ l ∈ linksOf host start ns, l.host < l.target := by
  match ns with
  | [] => exact nofun
  | n :: ns =>
    rw [linksOf]
    exact forall_mem_append.mpr ⟨host_lt_target host start n h,
      host_lt_target_of host (start + n.size) ns (by omega)⟩

end

mutual

/-- Closures are made by the function outside, or by functions inside. -/
theorem host_of_mem_links (host start : Nat) (n : Nest) :
    ∀ l ∈ n.links host start, l.host = host ∨ start ≤ l.host := by
  obtain ⟨kind, name, inner⟩ := n
  rw [links]
  refine forall_mem_cons.mpr ⟨.inl rfl, fun l hl => .inr ?_⟩
  rcases host_of_mem_linksOf start (start + 1) inner l hl with hhost | hhost
  · exact Nat.le_of_eq hhost.symm
  · exact Nat.le_of_succ_le hhost

theorem host_of_mem_linksOf (host start : Nat) (ns : List Nest) :
    ∀ l ∈ linksOf host start ns, l.host = host ∨ start ≤ l.host := by
  match ns with
  | [] => exact nofun
  | n :: ns =>
    rw [linksOf]
    refine forall_mem_append.mpr ⟨host_of_mem_links host start n, fun l hl => ?_⟩
    rcases host_of_mem_linksOf host (start + n.size) ns l hl with hhost | hhost
    · exact .inl hhost
    · exact .inr (Nat.le_trans (Nat.le_add_right ..) hhost)

end

end Nest

mutual

/-- The functions directly in an expression. -/
def Expression.nests : Expression → List Nest
  | .identifier _ | .literal _ | .this _ | .bare _ _ => []
  | .array es => elementsNests es
  | .object ms _ => membersNests ms
  | .function f => [f.nest]
  | .arrow params body _ _ => [.mk .arrow "<arrow>" (patternsNests params ++ body.nests)]
  | .unary _ e | .update _ _ e | .spread e _ => e.nests
  | .binary _ l r | .logical _ l r => l.nests ++ r.nests
  | .assignment _ t e => t.nests ++ e.nests
  | .conditional t a b => t.nests ++ (a.nests ++ b.nests)
  | .call e args | .construct e args => e.nests ++ expressionsNests args
  | .member o p _ _ => o.nests ++ p.nests
  | .sequence es | .template _ es _ => expressionsNests es

def expressionsNests : List Expression → List Nest
  | [] => []
  | e :: es => e.nests ++ expressionsNests es

def elementsNests : List (Option Expression) → List Nest
  | [] => []
  | none :: es => elementsNests es
  | some e :: es => e.nests ++ elementsNests es

def membersNests : List ObjectMember → List Nest
  | [] => []
  | m :: ms => m.nests ++ membersNests ms

def ObjectMember.nests : ObjectMember → List Nest
  | .property key e _ _ _ _ => key.nests ++ e.nests
  | .spread _ => []

def AssignmentTarget.nests : AssignmentTarget → List Nest
  | .identifier _ | .pattern _ => []
  | .member o p _ => o.nests ++ p.nests

def Function.nest : Function → Nest
  | .mk id params body _ _ _ =>
    .mk .function ((id.map (·.name)).getD "<anonymous>")
      (patternsNests params ++ (hoistedNests body ++ inPlaceNests body))

def ArrowBody.nests : ArrowBody → List Nest
  | .block body => hoistedNests body ++ inPlaceNests body
  | .expression e => e.nests

def Pattern.nests : Pattern → List Nest
  | .identifier _ | .member _ => []
  | .array ps => patternElementsNests ps
  | .object ms => patternMembersNests ms
  | .withDefault p e => e.nests ++ p.nests
  | .rest p _ => p.nests

def patternsNests : List Pattern → List Nest
  | [] => []
  | p :: ps => p.nests ++ patternsNests ps

def patternElementsNests : List (Option Pattern) → List Nest
  | [] => []
  | none :: ps => patternElementsNests ps
  | some p :: ps => p.nests ++ patternElementsNests ps

def patternMembersNests : List PatternMember → List Nest
  | [] => []
  | .property key p _ _ :: ms => key.nests ++ p.nests ++ patternMembersNests ms
  | .rest p _ :: ms => p.nests ++ patternMembersNests ms

def optionalNests : Option Expression → List Nest
  | none => []
  | some e => e.nests

def declaratorsNests : List Declarator → List Nest
  | [] => []
  | .mk p init :: ds => optionalNests init ++ (p.nests ++ declaratorsNests ds)

def targetsNests : List Declarator → List Nest
  | [] => []
  | .mk p _ :: ds => p.nests ++ targetsNests ds

def Declaration.nests : Declaration → List Nest
  | .mk _ ds _ => declaratorsNests ds

def Declaration.targetNests : Declaration → List Nest
  | .mk _ ds _ => targetsNests ds

def ForInit.nests : ForInit → List Nest
  | .declaration d => d.nests
  | .expression e => e.nests

def headNests : Option ForInit → List Nest
  | none => []
  | some init => init.nests

def ForTarget.nests : ForTarget → List Nest
  | .declaration d => d.targetNests
  | .target t => t.nests

def Statement.nests : Statement → List Nest
  | .declaration d => d.nests
  | .function f => [f.nest]
  | .breaks _ _ | .continues _ _ | .bare _ _ => []
  | .expression e => e.nests
  | .block body => hoistedNests body ++ inPlaceNests body
  | .returns e => optionalNests e
  | .ifElse t a b => t.nests ++ (a.nests ++ optionalStatementNests b)
  | .whileLoop t body => t.nests ++ body.nests
  | .doWhile t body => body.nests ++ t.nests
  | .forLoop init test update body =>
    headNests init ++ (optionalNests test ++ (body.nests ++ optionalNests update))
  | .forIn t e body _ _ | .forOf t e body _ _ => e.nests ++ (t.nests ++ body.nests)

def optionalStatementNests : Option Statement → List Nest
  | none => []
  | some s => s.nests

def hoistedNests : List Statement → List Nest
  | [] => []
  | .function f :: ss => f.nest :: hoistedNests ss
  | _ :: ss => hoistedNests ss

def inPlaceNests : List Statement → List Nest
  | [] => []
  | .function _ :: ss => inPlaceNests ss
  | s :: ss => s.nests ++ inPlaceNests ss

end

def Program.nests (p : Program) : List Nest := hoistedNests p.body ++ inPlaceNests p.body

/-- Who makes a closure of whom in a program, if the program itself has the number 0 and its functions
follow from the outside to the inside. -/
def Program.links (p : Program) : List Nest.Link := Nest.linksOf 0 1 p.nests

end ScriptIr.Tree
