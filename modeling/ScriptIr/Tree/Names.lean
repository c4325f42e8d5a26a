import ScriptIr.Tree.Basic

/-!
# Bound names

The names that a pattern or a declaration binds, in the order in which they are written.
-/
namespace ScriptIr.Tree

mutual

def Pattern.boundNames : Pattern → List String
  | .identifier id => [id.name]
  | .array elements => elementNames elements
  | .object members => memberNames members
  | .withDefault target _ => target.boundNames
  | .rest argument _ => argument.boundNames
  | .member _ => []

def elementNames : List (Option Pattern) → List String
  | [] => []
  | none :: elements => elementNames elements
  | some p :: elements => p.boundNames ++ elementNames elements

def memberNames : List PatternMember → List String
  | [] => []
  | .property _ value _ _ :: members => value.boundNames ++ memberNames members
  | .rest argument _ :: members => argument.boundNames ++ memberNames members

end

def Declaration.boundNames (d : Declaration) : List String :=
  d.declarators.flatMap fun d => d.target.boundNames

end ScriptIr.Tree
