import ScriptIr.Proofs.Tree.Lexical

/-!
# Renamed trees

A renaming replaces the names that a program binds and refers to. What is not a binding or a
reference stays: keys of properties that are not written in brackets, and labels.

* `Program.functionNames`: the names that functions carry themselves.
* `Declaration.boundNames_rename`: the names that renamed declarations bind.
-/
namespace ScriptIr.Tree

def Identifier.rename (r : String → String) (id : Identifier) : Identifier :=
  { id with name := r id.name }

section

variable (r : String → String)

mutual

/-- The expression with other names. -/
def Expression.rename : Expression → Expression
  | .identifier id => .identifier (id.rename r)
  | .literal l => .literal l
  | .this loc => .this loc
  | .array es => .array (renameElements es)
  | .object ms loc => .object (renameMembers ms) loc
  | .function f => .function f.rename
  | .arrow params body isAsync loc => .arrow (renamePatterns params) body.rename isAsync loc
  | .unary op e => .unary op e.rename
  | .update op prefixed e => .update op prefixed e.rename
  | .binary op a b => .binary op a.rename b.rename
  | .logical op a b => .logical op a.rename b.rename
  | .assignment op t e => .assignment op t.rename e.rename
  | .conditional t a b => .conditional t.rename a.rename b.rename
  | .call e args => .call e.rename (renameExpressions args)
  | .construct e args => .construct e.rename (renameExpressions args)
  | .member o p computed loc => .member o.rename (if computed then p.rename else p) computed loc
  | .sequence es => .sequence (renameExpressions es)
  | .template texts es loc => .template texts (renameExpressions es) loc
  | .spread e loc => .spread e.rename loc
  | .bare kind loc => .bare kind loc

def renameExpressions : List Expression → List Expression
  | [] => []
  | e :: es => e.rename :: renameExpressions es

def renameElements : List (Option Expression) → List (Option Expression)
  | [] => []
  | none :: es => none :: renameElements es
  | some e :: es => some e.rename :: renameElements es

def renameMembers : List ObjectMember → List ObjectMember
  | [] => []
  | m :: ms => m.rename :: renameMembers ms

def ObjectMember.rename : ObjectMember → ObjectMember
  | .property key e kind method computed loc =>
    .property (if computed then key.rename else key) e.rename kind method computed loc
  | .spread loc => .spread loc

def AssignmentTarget.rename : AssignmentTarget → AssignmentTarget
  | .identifier id => .identifier (id.rename r)
  | .member o p computed => .member o.rename (if computed then p.rename else p) computed
  | .pattern loc => .pattern loc

def Function.rename : Function → Function
  | .mk id params body generator isAsync loc =>
    .mk (id.map (·.rename r)) (renamePatterns params) (renameStatements body) generator isAsync loc

def ArrowBody.rename : ArrowBody → ArrowBody
  | .block body => .block (renameStatements body)
  | .expression e => .expression e.rename

def Pattern.rename : Pattern → Pattern
  | .identifier id => .identifier (id.rename r)
  | .array ps => .array (renamePatternElements ps)
  | .object ms => .object (renamePatternMembers ms)
  | .withDefault p e => .withDefault p.rename e.rename
  | .rest p loc => .rest p.rename loc
  | .member loc => .member loc

def renamePatterns : List Pattern → List Pattern
  | [] => []
  | p :: ps => p.rename :: renamePatterns ps

def renamePatternElements : List (Option Pattern) → List (Option Pattern)
  | [] => []
  | none :: ps => none :: renamePatternElements ps
  | some p :: ps => some p.rename :: renamePatternElements ps

def renamePatternMembers : List PatternMember → List PatternMember
  | [] => []
  | .property key p computed loc :: ms =>
    .property (if computed then key.rename else key) p.rename computed loc :: renamePatternMembers ms
  | .rest p loc :: ms => .rest p.rename loc :: renamePatternMembers ms

def renameOptional : Option Expression → Option Expression
  | none => none
  | some e => some e.rename

def renameDeclarators : List Declarator → List Declarator
  | [] => []
  | .mk p init :: ds => .mk p.rename (renameOptional init) :: renameDeclarators ds

def Declaration.rename : Declaration → Declaration
  | .mk kind ds loc => .mk kind (renameDeclarators ds) loc

def ForInit.rename : ForInit → ForInit
  | .declaration d => .declaration d.rename
  | .expression e => .expression e.rename

def renameHead : Option ForInit → Option ForInit
  | none => none
  | some init => some init.rename

/-- What receives each element of a loop, with other names. -/
def ForTarget.rename : ForTarget → ForTarget
  | .declaration d => .declaration d.rename
  | .target t => .target t.rename

def Statement.rename : Statement → Statement
  | .declaration d => .declaration d.rename
  | .function f => .function f.rename
  | .expression e => .expression e.rename
  | .block body => .block (renameStatements body)
  | .returns e => .returns (renameOptional e)
  | .breaks label loc => .breaks label loc
  | .continues label loc => .continues label loc
  | .ifElse t a b => .ifElse t.rename a.rename (renameOptionalStatement b)
  | .whileLoop t body => .whileLoop t.rename body.rename
  | .doWhile t body => .doWhile t.rename body.rename
  | .forLoop init test update body =>
    .forLoop (renameHead init) (renameOptional test) (renameOptional update) body.rename
  | .forIn t e body isAwait loc => .forIn t.rename e.rename body.rename isAwait loc
  | .forOf t e body isAwait loc => .forOf t.rename e.rename body.rename isAwait loc
  | .bare kind loc => .bare kind loc

def renameOptionalStatement : Option Statement → Option Statement
  | none => none
  | some s => some s.rename

def renameStatements : List Statement → List Statement
  | [] => []
  | s :: ss => s.rename :: renameStatements ss

end

end

def Program.rename (r : String → String) (p : Program) : Program := ⟨renameStatements r p.body⟩

/-! ## Names of functions -/

mutual

def Expression.functionNames : Expression → List String
  | .identifier _ | .literal _ | .this _ | .bare _ _ => []
  | .array es => elementsFunctionNames es
  | .object ms _ => membersFunctionNames ms
  | .function f => f.functionNames
  | .arrow _ body _ _ => body.functionNames
  | .unary _ e | .update _ _ e | .spread e _ => e.functionNames
  | .binary _ a b | .logical _ a b => a.functionNames ++ b.functionNames
  | .assignment _ t e => t.functionNames ++ e.functionNames
  | .conditional t a b => t.functionNames ++ (a.functionNames ++ b.functionNames)
  | .call e args | .construct e args => e.functionNames ++ expressionsFunctionNames args
  | .member o p computed _ => o.functionNames ++ if computed then p.functionNames else []
  | .sequence es | .template _ es _ => expressionsFunctionNames es

def expressionsFunctionNames : List Expression → List String
  | [] => []
  | e :: es => e.functionNames ++ expressionsFunctionNames es

def elementsFunctionNames : List (Option Expression) → List String
  | [] => []
  | none :: es => elementsFunctionNames es
  | some e :: es => e.functionNames ++ elementsFunctionNames es

def membersFunctionNames : List ObjectMember → List String
  | [] => []
  | m :: ms => m.functionNames ++ membersFunctionNames ms

def ObjectMember.functionNames : ObjectMember → List String
  | .property _ e _ _ _ _ => e.functionNames
  | .spread _ => []

def AssignmentTarget.functionNames : AssignmentTarget → List String
  | .identifier _ | .pattern _ => []
  | .member o p computed => o.functionNames ++ if computed then p.functionNames else []

def Function.functionNames : Function → List String
  | .mk id _ body _ _ _ => (id.map (·.name)).toList ++ statementsFunctionNames body

def ArrowBody.functionNames : ArrowBody → List String
  | .block body => statementsFunctionNames body
  | .expression e => e.functionNames

def Pattern.functionNames : Pattern → List String
  | .identifier _ | .rest _ _ | .member _ => []
  | .array ps => patternElementsFunctionNames ps
  | .object ms => patternMembersFunctionNames ms
  | .withDefault p e => e.functionNames ++ p.functionNames

def patternElementsFunctionNames : List (Option Pattern) → List String
  | [] => []
  | none :: ps => patternElementsFunctionNames ps
  | some p :: ps => p.functionNames ++ patternElementsFunctionNames ps

def patternMembersFunctionNames : List PatternMember → List String
  | [] => []
  | .property _ p _ _ :: ms => p.functionNames ++ patternMembersFunctionNames ms
  | .rest _ _ :: ms => patternMembersFunctionNames ms

def optionalFunctionNames : Option Expression → List String
  | none => []
  | some e => e.functionNames

def declaratorsFunctionNames : List Declarator → List String
  | [] => []
  | .mk p init :: ds =>
    optionalFunctionNames init ++ (p.functionNames ++ declaratorsFunctionNames ds)

def Declaration.functionNames : Declaration → List String
  | .mk _ ds _ => declaratorsFunctionNames ds

def ForInit.functionNames : ForInit → List String
  | .declaration d => d.functionNames
  | .expression e => e.functionNames

def headFunctionNames : Option ForInit → List String
  | none => []
  | some init => init.functionNames

def ForTarget.functionNames : ForTarget → List String
  | .declaration d => d.functionNames
  | .target t => t.functionNames

def Statement.functionNames : Statement → List String
  | .declaration d => d.functionNames
  | .function f => f.functionNames
  | .expression e => e.functionNames
  | .block body => statementsFunctionNames body
  | .returns e => optionalFunctionNames e
  | .breaks _ _ | .continues _ _ | .bare _ _ => []
  | .ifElse t a b => t.functionNames ++ (a.functionNames ++ optionalStatementFunctionNames b)
  | .whileLoop t body | .doWhile t body => t.functionNames ++ body.functionNames
  | .forLoop init test update body =>
    headFunctionNames init
      ++ (optionalFunctionNames test ++ (optionalFunctionNames update ++ body.functionNames))
  | .forIn t e body _ _ | .forOf t e body _ _ =>
    t.functionNames ++ (e.functionNames ++ body.functionNames)

def optionalStatementFunctionNames : Option Statement → List String
  | none => []
  | some s => s.functionNames

def statementsFunctionNames : List Statement → List String
  | [] => []
  | s :: ss => s.functionNames ++ statementsFunctionNames ss

end

def Program.functionNames (p : Program) : List String := statementsFunctionNames p.body

def Program.freeNames (p : Program) : List String :=
  (p.references.filter (·.origin.isNone)).map (·.name)

/-! ## What renaming keeps and changes -/

section

variable (r : String → String)

@[simp] theorem Function.loc_rename (f : Function) : (f.rename r).loc = f.loc := by
  cases f; simp [Function.rename, Function.loc]

@[simp] theorem Function.id_rename (f : Function) : (f.rename r).id = f.id.map (·.rename r) := by
  cases f; simp [Function.rename, Function.id]

@[simp] theorem Expression.loc_rename (e : Expression) : (e.rename r).loc = e.loc := by
  cases e <;> simp [Expression.rename, Expression.loc, Identifier.rename]

mutual

theorem Pattern.boundNames_rename (p : Pattern) : (p.rename r).boundNames = p.boundNames.map r := by
  cases p with
  | identifier id => simp [Pattern.rename, Pattern.boundNames, Identifier.rename]
  | array ps => simpa [Pattern.rename, Pattern.boundNames] using elementNames_rename ps
  | object ms => simpa [Pattern.rename, Pattern.boundNames] using memberNames_rename ms
  | withDefault p e => simpa [Pattern.rename, Pattern.boundNames] using p.boundNames_rename
  | rest p loc => simpa [Pattern.rename, Pattern.boundNames] using p.boundNames_rename
  | member loc => simp [Pattern.rename, Pattern.boundNames]

theorem elementNames_rename (ps : List (Option Pattern)) :
    elementNames (renamePatternElements r ps) = (elementNames ps).map r := by
  match ps with
  | [] => simp [renamePatternElements, elementNames]
  | none :: ps => simpa [renamePatternElements, elementNames] using elementNames_rename ps
  | some p :: ps =>
    simp [renamePatternElements, elementNames, p.boundNames_rename, elementNames_rename ps]

theorem memberNames_rename (ms : List PatternMember) :
    memberNames (renamePatternMembers r ms) = (memberNames ms).map r := by
  match ms with
  | [] => simp [renamePatternMembers, memberNames]
  | .property key p computed loc :: ms =>
    simp [renamePatternMembers, memberNames, p.boundNames_rename, memberNames_rename ms]
  | .rest p loc :: ms =>
    simp [renamePatternMembers, memberNames, p.boundNames_rename, memberNames_rename ms]

end

variable (d : Declaration)

theorem Declaration.boundNames_rename : (d.rename r).boundNames = d.boundNames.map r := by
  obtain ⟨kind, ds, loc⟩ := d
  simp only [Declaration.boundNames, Declaration.rename, Declaration.declarators]
  induction ds with
  | nil => simp [renameDeclarators]
  | cons d ds ih =>
    obtain ⟨p, init⟩ := d
    rw [renameDeclarators, List.flatMap_cons, List.flatMap_cons, List.map_append, ih]
    exact congrArg (· ++ _) (p.boundNames_rename r)

@[simp] theorem Declaration.kind_rename : (d.rename r).kind = d.kind := by
  cases d; simp [Declaration.rename, Declaration.kind]

@[simp] theorem Declaration.loc_rename : (d.rename r).loc = d.loc := by
  cases d; simp [Declaration.rename, Declaration.loc]

@[simp] theorem Declaration.isConstant_rename : (d.rename r).isConstant = d.isConstant := by
  simp [Declaration.isConstant]

end

end ScriptIr.Tree
