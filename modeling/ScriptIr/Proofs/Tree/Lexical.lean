import ScriptIr.Error
import ScriptIr.Tree.Kind
import ScriptIr.Tree.Names

/-!
# Lexical scopes of a tree

Which declaration a name refers to, read off the tree alone. Scopes are numbered in the order in which
they are entered: the program has scope 0, and every function, block and loop has one of its own. A
list of statements enters its function declarations before its other statements. In a `for` loop whose
head declares names, each round has a further scope with copies of them, which the body sees; the
head, the test and the update see the names of the loop.

* `Origin`: the declaration that a name refers to.
* `Program.references`: the references of a program, each with the origin of its name.
-/
namespace ScriptIr.Tree

/-! ## Walks -/

abbrev Positions := String → Option Nat

structure Origin where
  /-- The number of the scope. -/
  scope : Nat
  /-- The position of a parameter. -/
  position : Option Nat
  deriving DecidableEq, Repr, Inhabited

abbrev Env := String → Option Origin

def Env.declare (env : Env) (names : List String) (scope : Nat)
    (positions : Positions := fun _ => none) : Env :=
  fun name => if name ∈ names then some ⟨scope, positions name⟩ else env name

/-- A place that reads or writes a name, with the declaration of the name if there is one. -/
structure Reference where
  name : String
  origin : Option Origin
  deriving DecidableEq, Repr, Inhabited

/-- The references in a part of the program, given what names mean where it stands, and the number of
scopes entered after it, given the number of scopes entered before. -/
def Walk := Env → Nat → List Reference × Nat

namespace Walk

/-- A part without references and scopes. -/
def skip : Walk := fun _ n => ([], n)

/-- A name that is read or written. -/
def use (name : String) : Walk := fun env n => ([⟨name, env name⟩], n)

/-- One part after another. -/
def andThen (v w : Walk) : Walk := fun env n =>
  let first := v env n
  let second := w env first.2
  (first.1 ++ second.1, second.2)

instance : Append Walk := ⟨andThen⟩

/-- A part in a scope of its own that declares some names, of which some may be parameters. -/
def declaring (names : List String) (w : Walk) (positions : Positions := fun _ => none) : Walk :=
  fun env n => w (env.declare names n positions) (n + 1)

/-- The test and the body of a `for` loop whose head declares some names. The scope of the rounds is
entered before the test, which does not see it. -/
def rounds (names : List String) (test body : Walk) : Walk := fun env n =>
  if names.isEmpty then (test ++ body) env n
  else
    let first := test env (n + 1)
    let second := body (env.declare names n) first.2
    (first.1 ++ second.1, second.2)

@[simp] theorem append_skip (w : Walk) : w ++ skip = w := by
  funext env n
  show ((w env n).1 ++ [], (w env n).2) = w env n
  rw [List.append_nil]

theorem append_assoc (u v w : Walk) : u ++ v ++ w = u ++ (v ++ w) := by
  funext env n
  exact Prod.ext (List.append_assoc ..) rfl

end Walk

/-! ## Declared names -/

def Pattern.plainName? : Pattern → Option String
  | .identifier id => some id.name
  | _ => none

def positions (params : List Pattern) : Positions := fun name =>
  params.findIdx? fun p => p.plainName? == some name

def Statement.declaredNames : Statement → List String
  | .declaration d => d.boundNames
  | .function f => (f.id.map (·.name)).toList
  | _ => []

def declaredNames (body : List Statement) : List String := body.flatMap Statement.declaredNames

def ArrowBody.declaredNames : ArrowBody → List String
  | .block body => Tree.declaredNames body
  | .expression _ => []

/-- The names that the first part of a loop's head declares. -/
def ForInit.declaredNames : ForInit → List String
  | .declaration d => d.boundNames
  | .expression _ => []

def ForTarget.declaredNames : ForTarget → List String
  | .declaration d => d.boundNames
  | .target _ => []

def headNames : Option ForInit → List String
  | some init => init.declaredNames
  | none => []

/-! ## References -/

mutual

def Expression.walk : Expression → Walk
  | .identifier id => .use id.name
  | .literal _ | .this _ | .bare _ _ => .skip
  | .array es => elementsWalk es
  | .object ms _ => membersWalk ms
  | .function f => f.walk
  | .arrow params body _ _ =>
    .declaring (params.flatMap Pattern.boundNames ++ body.declaredNames) body.walk (positions params)
  | .unary _ e | .update _ _ e | .spread e _ => e.walk
  | .binary _ l r | .logical _ l r => l.walk ++ r.walk
  | .assignment _ t e => t.walk ++ e.walk
  | .conditional t a b => t.walk ++ (a.walk ++ b.walk)
  | .call e args | .construct e args => e.walk ++ expressionsWalk args
  | .member o p computed _ => o.walk ++ if computed then p.walk else .skip
  | .sequence es | .template _ es _ => expressionsWalk es

def expressionsWalk : List Expression → Walk
  | [] => .skip
  | e :: es => e.walk ++ expressionsWalk es

def elementsWalk : List (Option Expression) → Walk
  | [] => .skip
  | none :: es => elementsWalk es
  | some e :: es => e.walk ++ elementsWalk es

def membersWalk : List ObjectMember → Walk
  | [] => .skip
  | m :: ms => m.walk ++ membersWalk ms

/-- The references in a member of an object literal. Its key is a name only. -/
def ObjectMember.walk : ObjectMember → Walk
  | .property _ e _ _ _ _ => e.walk
  | .spread _ => .skip

def AssignmentTarget.walk : AssignmentTarget → Walk
  | .identifier id => .use id.name
  | .member o p computed => o.walk ++ if computed then p.walk else .skip
  | .pattern _ => .skip

def Function.walk : Function → Walk
  | .mk _ params body _ _ _ =>
    .declaring ("arguments" :: (params.flatMap Pattern.boundNames ++ declaredNames body))
      (hoistedWalk body ++ inPlaceWalk body) (positions params)

def ArrowBody.walk : ArrowBody → Walk
  | .block body => hoistedWalk body ++ inPlaceWalk body
  | .expression e => e.walk

def Pattern.walk : Pattern → Walk
  | .identifier _ | .rest _ _ | .member _ => .skip
  | .array ps => patternElementsWalk ps
  | .object ms => patternMembersWalk ms
  | .withDefault p e => e.walk ++ p.walk

def patternElementsWalk : List (Option Pattern) → Walk
  | [] => .skip
  | none :: ps => patternElementsWalk ps
  | some p :: ps => p.walk ++ patternElementsWalk ps

def patternMembersWalk : List PatternMember → Walk
  | [] => .skip
  | .property _ p _ _ :: ms => p.walk ++ patternMembersWalk ms
  | .rest _ _ :: ms => patternMembersWalk ms

def optionalWalk : Option Expression → Walk
  | none => .skip
  | some e => e.walk

def declaratorsWalk : List Declarator → Walk
  | [] => .skip
  | .mk p init :: ds => optionalWalk init ++ p.walk ++ declaratorsWalk ds

def targetsWalk : List Declarator → Walk
  | [] => .skip
  | .mk p _ :: ds => p.walk ++ targetsWalk ds

def Declaration.walk : Declaration → Walk
  | .mk _ ds _ => declaratorsWalk ds

def headWalk : Option ForInit → Walk
  | none => .skip
  | some init => init.walk

def ForInit.walk : ForInit → Walk
  | .declaration d => d.walk
  | .expression e => e.walk

/-- The references in a declaration that receives each element of a loop: it has no initial value. -/
def Declaration.targetWalk : Declaration → Walk
  | .mk _ ds _ => targetsWalk ds

def ForTarget.walk : ForTarget → Walk
  | .declaration d => d.targetWalk
  | .target t => t.walk

def Statement.walk : Statement → Walk
  | .declaration d => d.walk
  | .function _ | .breaks _ _ | .continues _ _ | .bare _ _ => .skip
  | .expression e => e.walk
  | .block body => .declaring (declaredNames body) (hoistedWalk body ++ inPlaceWalk body)
  | .returns e => optionalWalk e
  | .ifElse t a b => t.walk ++ (a.walk ++ optionalStatementWalk b)
  | .whileLoop t body => .declaring [] (t.walk ++ body.walk)
  | .doWhile t body => .declaring [] (body.walk ++ t.walk)
  | .forLoop init test update body =>
    .declaring (headNames init)
      (headWalk init ++ (.rounds (headNames init) (optionalWalk test) body.walk ++ optionalWalk update))
  | .forIn t e body _ _ | .forOf t e body _ _ =>
    e.walk ++ .declaring t.declaredNames (t.walk ++ body.walk)

def optionalStatementWalk : Option Statement → Walk
  | none => .skip
  | some s => s.walk

def closureWalk : Statement → Walk
  | .function f => f.walk
  | _ => .skip

/-- The references in the function declarations of a list. -/
def hoistedWalk : List Statement → Walk
  | [] => .skip
  | s :: ss => closureWalk s ++ hoistedWalk ss

/-- The references in the other statements of a list. -/
def inPlaceWalk : List Statement → Walk
  | [] => .skip
  | s :: ss => s.walk ++ inPlaceWalk ss

end

variable (p : Program)

def Program.walk : Walk :=
  .declaring (declaredNames p.body) (hoistedWalk p.body ++ inPlaceWalk p.body)

def Program.references : List Reference := (p.walk (fun _ => none) 0).1

/-! ## Nodes -/

/-- A node of a tree: an expression, or a statement that is the body of a loop or of a choice. -/
inductive Node where
  | expression (e : Expression)
  | body (s : Statement)

mutual

def Expression.nodes : Expression → List Node
  | .identifier id => [.expression (.identifier id)]
  | .literal l => [.expression (.literal l)]
  | .this loc => [.expression (.this loc)]
  | .bare kind loc => [.expression (.bare kind loc)]
  | .array es => .expression (.array es) :: elementsNodes es
  | .object ms loc => .expression (.object ms loc) :: membersNodes ms
  | .function f => .expression (.function f) :: f.nodes
  | .arrow params body isAsync loc =>
    .expression (.arrow params body isAsync loc) :: (patternsNodes params ++ body.nodes)
  | .unary op e => .expression (.unary op e) :: e.nodes
  | .update op prefixed e => .expression (.update op prefixed e) :: e.nodes
  | .spread e loc => .expression (.spread e loc) :: e.nodes
  | .binary op l r => .expression (.binary op l r) :: (l.nodes ++ r.nodes)
  | .logical op l r => .expression (.logical op l r) :: (l.nodes ++ r.nodes)
  | .assignment op t e => .expression (.assignment op t e) :: (t.nodes ++ e.nodes)
  | .conditional t a b => .expression (.conditional t a b) :: (t.nodes ++ (a.nodes ++ b.nodes))
  | .call e args => .expression (.call e args) :: (e.nodes ++ expressionsNodes args)
  | .construct e args => .expression (.construct e args) :: (e.nodes ++ expressionsNodes args)
  | .member o p computed loc => .expression (.member o p computed loc) :: (o.nodes ++ p.nodes)
  | .sequence es => .expression (.sequence es) :: expressionsNodes es
  | .template texts es loc => .expression (.template texts es loc) :: expressionsNodes es

def expressionsNodes : List Expression → List Node
  | [] => []
  | e :: es => e.nodes ++ expressionsNodes es

def elementsNodes : List (Option Expression) → List Node
  | [] => []
  | none :: es => elementsNodes es
  | some e :: es => e.nodes ++ elementsNodes es

def membersNodes : List ObjectMember → List Node
  | [] => []
  | m :: ms => m.nodes ++ membersNodes ms

def ObjectMember.nodes : ObjectMember → List Node
  | .property key e _ _ _ _ => key.nodes ++ e.nodes
  | .spread _ => []

def AssignmentTarget.nodes : AssignmentTarget → List Node
  | .identifier id => [.expression (.identifier id)]
  | .member o p computed => .expression (.member o p computed none) :: (o.nodes ++ p.nodes)
  | .pattern _ => []

def Function.nodes : Function → List Node
  | .mk _ params body _ _ _ => patternsNodes params ++ statementsNodes body

def ArrowBody.nodes : ArrowBody → List Node
  | .block body => statementsNodes body
  | .expression e => e.nodes

def Pattern.nodes : Pattern → List Node
  | .identifier _ | .member _ => []
  | .array ps => patternElementsNodes ps
  | .object ms => patternMembersNodes ms
  | .withDefault p e => p.nodes ++ e.nodes
  | .rest p _ => p.nodes

def patternsNodes : List Pattern → List Node
  | [] => []
  | p :: ps => p.nodes ++ patternsNodes ps

def patternElementsNodes : List (Option Pattern) → List Node
  | [] => []
  | none :: ps => patternElementsNodes ps
  | some p :: ps => p.nodes ++ patternElementsNodes ps

def patternMembersNodes : List PatternMember → List Node
  | [] => []
  | .property key p _ _ :: ms => key.nodes ++ p.nodes ++ patternMembersNodes ms
  | .rest p _ :: ms => p.nodes ++ patternMembersNodes ms

def optionalNodes : Option Expression → List Node
  | none => []
  | some e => e.nodes

def declaratorsNodes : List Declarator → List Node
  | [] => []
  | .mk p init :: ds => p.nodes ++ optionalNodes init ++ declaratorsNodes ds

def Declaration.nodes : Declaration → List Node
  | .mk _ ds _ => declaratorsNodes ds

def headNodes : Option ForInit → List Node
  | none => []
  | some init => init.nodes

def ForInit.nodes : ForInit → List Node
  | .declaration d => d.nodes
  | .expression e => e.nodes

def ForTarget.nodes : ForTarget → List Node
  | .declaration d => d.nodes
  | .target t => t.nodes

def Statement.nodes : Statement → List Node
  | .declaration d => d.nodes
  | .function f => f.nodes
  | .expression e => e.nodes
  | .block body => statementsNodes body
  | .returns e => optionalNodes e
  | .breaks _ _ | .continues _ _ | .bare _ _ => []
  | .ifElse t a b => t.nodes ++ (.body a :: a.nodes ++ optionalBodyNodes b)
  | .whileLoop t body | .doWhile t body => t.nodes ++ (.body body :: body.nodes)
  | .forLoop init test update body =>
    headNodes init ++ (optionalNodes test ++ (optionalNodes update ++ (.body body :: body.nodes)))
  | .forIn t e body _ _ | .forOf t e body _ _ => t.nodes ++ (e.nodes ++ (.body body :: body.nodes))

def optionalBodyNodes : Option Statement → List Node
  | none => []
  | some s => .body s :: s.nodes

def statementsNodes : List Statement → List Node
  | [] => []
  | s :: ss => s.nodes ++ statementsNodes ss

end

def AllNodes (P : Node → Prop) (ns : List Node) : Prop := ∀ n ∈ ns, P n

namespace AllNodes

variable {P : Node → Prop} {n : Node} {ms ns : List Node}

theorem head (h : AllNodes P (n :: ns)) : P n := h n List.mem_cons_self

theorem tail (h : AllNodes P (n :: ns)) : AllNodes P ns := fun m hm =>
  h m (List.mem_cons_of_mem _ hm)

theorem left (h : AllNodes P (ms ++ ns)) : AllNodes P ms := fun m hm =>
  h m (List.mem_append_left _ hm)

theorem right (h : AllNodes P (ms ++ ns)) : AllNodes P ns := fun m hm =>
  h m (List.mem_append_right _ hm)

end AllNodes

def Program.nodes : List Node := statementsNodes p.body

/-- Whether a statement declares names for the list it stands in. -/
def Statement.isLexical : Statement → Bool
  | .declaration d => d.kind != .functionWide
  | _ => false

def Node.parserShaped : Node → Bool
  | .body s => !s.isLexical
  | .expression _ => true

/-- Whether block-wide declarations stand in lists of statements and in heads of loops only, as in
every tree that a parser makes. -/
def Program.parserShaped : Bool := p.nodes.all Node.parserShaped

/-- The fault of an expression of a shape that parsers do not make: a sequence without expressions,
or a member without brackets whose property is not a name. -/
def Expression.fault? : Expression → Option Fault
  | .sequence [] => some .emptySequence
  | .member _ (.identifier _) false _ | .member _ (.bare .privateName _) false _ => none
  | .member _ p false _ => some (.memberKey p.kindName)
  | _ => none

end ScriptIr.Tree
