import ScriptIr.Proofs.Semantics.Source

/-!
# Nodes of functions

What is true of every node of a tree is true of every node in the bodies of its functions.

* `Callable.Shaped`: names are declared only where parsers put declarations in the body of a function.
* `Program.shaped_of_mem`: the functions of a program that a parser makes are shaped like that.
-/
namespace ScriptIr.Tree

def BodiesHave (P : Node → Prop) (cs : List Callable) : Prop := ∀ c ∈ cs, ∀ node ∈ c.body.nodes, P node

namespace BodiesHave

variable {P : Node → Prop} {c : Callable} {cs ds : List Callable}

theorem nil : BodiesHave P [] := nofun

theorem cons (h : ∀ node ∈ c.body.nodes, P node) (hs : BodiesHave P cs) : BodiesHave P (c :: cs) :=
  List.forall_mem_cons.mpr ⟨h, hs⟩

theorem append (h : BodiesHave P cs) (h' : BodiesHave P ds) : BodiesHave P (cs ++ ds) :=
  List.forall_mem_append.mpr ⟨h, h'⟩

theorem ite {b : Bool} (h : BodiesHave P cs) : BodiesHave P (if b then cs else []) := by
  cases b with
  | true => exact h
  | false => exact nil

end BodiesHave

open BodiesHave

variable {P : Node → Prop}

mutual

theorem Expression.bodies_have (e : Expression) (h : AllNodes P e.nodes) : BodiesHave P e.functions := by
  cases e with
  | identifier _ | literal _ | this _ | bare _ _ => exact nil
  | array es => exact elements_bodies_have es h.tail
  | object ms loc => exact members_bodies_have ms h.tail
  | function f => exact f.bodies_have h.tail
  | arrow params body isAsync loc => exact cons h.tail.right (body.bodies_have h.tail.right)
  | unary _ e | update _ _ e | spread e _ => exact e.bodies_have h.tail
  | binary _ l r | logical _ l r =>
    exact (l.bodies_have h.tail.left).append (r.bodies_have h.tail.right)
  | assignment op t e => exact (t.bodies_have h.tail.left).append (e.bodies_have h.tail.right)
  | conditional t a b =>
    exact (t.bodies_have h.tail.left).append ((a.bodies_have h.tail.right.left).append
      (b.bodies_have h.tail.right.right))
  | call e args | construct e args =>
    exact (e.bodies_have h.tail.left).append (expressions_bodies_have args h.tail.right)
  | member o p computed loc =>
    exact (o.bodies_have h.tail.left).append (p.bodies_have h.tail.right).ite
  | sequence es | template _ es _ => exact expressions_bodies_have es h.tail

theorem expressions_bodies_have (es : List Expression) (h : AllNodes P (expressionsNodes es)) :
    BodiesHave P (expressionsFunctions es) := by
  cases es with
  | nil => exact nil
  | cons e es => exact (e.bodies_have h.left).append (expressions_bodies_have es h.right)

theorem elements_bodies_have (es : List (Option Expression))
    (h : AllNodes P (elementsNodes es)) : BodiesHave P (elementsFunctions es) := by
  match es with
  | [] => exact nil
  | none :: es => exact elements_bodies_have es h
  | some e :: es => exact (e.bodies_have h.left).append (elements_bodies_have es h.right)

theorem members_bodies_have (ms : List ObjectMember) (h : AllNodes P (membersNodes ms)) :
    BodiesHave P (membersFunctions ms) := by
  cases ms with
  | nil => exact nil
  | cons m ms => exact (m.bodies_have h.left).append (members_bodies_have ms h.right)

theorem ObjectMember.bodies_have (m : ObjectMember) (h : AllNodes P m.nodes) :
    BodiesHave P m.functions := by
  cases m with
  | property key e kind method computed loc => exact e.bodies_have h.right
  | spread loc => exact nil

theorem AssignmentTarget.bodies_have (t : AssignmentTarget) (h : AllNodes P t.nodes) :
    BodiesHave P t.functions := by
  cases t with
  | identifier _ | pattern _ => exact nil
  | member o p computed => exact (o.bodies_have h.tail.left).append (p.bodies_have h.tail.right).ite

theorem Function.bodies_have (f : Function) (h : AllNodes P f.nodes) : BodiesHave P f.functions := by
  obtain ⟨id, params, body, generator, isAsync, loc⟩ := f
  have hbody := statements_bodies_have body h.right
  exact cons h.right (hbody.1.append hbody.2)

theorem ArrowBody.bodies_have (body : ArrowBody) (h : AllNodes P body.nodes) :
    BodiesHave P body.functions := by
  cases body with
  | block body =>
    have hbody := statements_bodies_have body h
    exact hbody.1.append hbody.2
  | expression e => exact e.bodies_have h

theorem Pattern.bodies_have (p : Pattern) (h : AllNodes P p.nodes) : BodiesHave P p.functions := by
  cases p with
  | identifier _ | rest _ _ | member _ => exact nil
  | array ps => exact patternElements_bodies_have ps h
  | object ms => exact patternMembers_bodies_have ms h
  | withDefault p e => exact (e.bodies_have h.right).append (p.bodies_have h.left)

theorem patternElements_bodies_have (ps : List (Option Pattern))
    (h : AllNodes P (patternElementsNodes ps)) : BodiesHave P (patternElementsFunctions ps) := by
  match ps with
  | [] => exact nil
  | none :: ps => exact patternElements_bodies_have ps h
  | some p :: ps => exact (p.bodies_have h.left).append (patternElements_bodies_have ps h.right)

theorem patternMembers_bodies_have (ms : List PatternMember)
    (h : AllNodes P (patternMembersNodes ms)) : BodiesHave P (patternMembersFunctions ms) := by
  match ms with
  | [] => exact nil
  | .property key p computed loc :: ms =>
    exact (p.bodies_have h.left.right).append (patternMembers_bodies_have ms h.right)
  | .rest p loc :: ms => exact patternMembers_bodies_have ms h.right

theorem optional_bodies_have (o : Option Expression) (h : AllNodes P (optionalNodes o)) :
    BodiesHave P (optionalFunctions o) := by
  cases o with
  | none => exact nil
  | some e => exact e.bodies_have h

theorem declarators_bodies_have (ds : List Declarator) (h : AllNodes P (declaratorsNodes ds)) :
    BodiesHave P (declaratorsFunctions ds) ∧ BodiesHave P (targetsFunctions ds) := by
  match ds with
  | [] => exact ⟨nil, nil⟩
  | .mk p init :: ds =>
    have hp := p.bodies_have h.left.left
    have hds := declarators_bodies_have ds h.right
    exact ⟨(optional_bodies_have init h.left.right).append (hp.append hds.1), hp.append hds.2⟩

theorem Declaration.bodies_have (d : Declaration) (h : AllNodes P d.nodes) :
    BodiesHave P d.functions ∧ BodiesHave P d.targetFunctions := by
  obtain ⟨kind, ds, loc⟩ := d
  exact declarators_bodies_have ds h

theorem head_bodies_have (init : Option ForInit) (h : AllNodes P (headNodes init)) :
    BodiesHave P (headFunctions init) := by
  match init with
  | none => exact nil
  | some (.declaration d) => exact (d.bodies_have h).1
  | some (.expression e) => exact e.bodies_have h

theorem ForTarget.bodies_have (t : ForTarget) (h : AllNodes P t.nodes) : BodiesHave P t.functions := by
  cases t with
  | declaration d => exact (d.bodies_have h).2
  | target t => exact t.bodies_have h

theorem Statement.bodies_have (s : Statement) (h : AllNodes P s.nodes) : BodiesHave P s.functions := by
  cases s with
  | declaration d => exact (d.bodies_have h).1
  | function _ | breaks _ _ | continues _ _ | bare _ _ => exact nil
  | expression e => exact e.bodies_have h
  | block body =>
    have hbody := statements_bodies_have body h
    exact hbody.1.append hbody.2
  | returns e => exact optional_bodies_have e h
  | ifElse t a b =>
    exact (t.bodies_have h.left).append
      ((a.bodies_have h.right.left.tail).append (optionalStatement_bodies_have b h.right.right))
  | whileLoop t body => exact (t.bodies_have h.left).append (body.bodies_have h.right.tail)
  | doWhile t body => exact (body.bodies_have h.right.tail).append (t.bodies_have h.left)
  | forLoop init test update body =>
    exact (head_bodies_have init h.left).append ((optional_bodies_have test h.right.left).append
      ((body.bodies_have h.right.right.right.tail).append
        (optional_bodies_have update h.right.right.left)))
  | forIn t e body isAwait loc | forOf t e body isAwait loc =>
    exact (e.bodies_have h.right.left).append
      ((t.bodies_have h.left).append (body.bodies_have h.right.right.tail))

theorem optionalStatement_bodies_have (o : Option Statement)
    (h : AllNodes P (optionalBodyNodes o)) : BodiesHave P (optionalStatementFunctions o) := by
  cases o with
  | none => exact nil
  | some s => exact s.bodies_have h.tail

theorem statements_bodies_have (ss : List Statement) (h : AllNodes P (statementsNodes ss)) :
    BodiesHave P (hoistedFunctions ss) ∧ BodiesHave P (inPlaceFunctions ss) := by
  match ss with
  | [] => exact ⟨nil, nil⟩
  | s :: ss =>
    have hss := statements_bodies_have ss h.right
    refine ⟨append ?_ hss.1, (s.bodies_have h.left).append hss.2⟩
    cases s with
    | function f => exact f.bodies_have h.left
    | _ => exact nil

end

def Callable.Shaped (c : Callable) : Prop := ∀ node ∈ c.body.nodes, node.parserShaped = true

theorem Program.shaped_of_mem {p : Program} (h : p.parserShaped = true) {c : Callable}
    (hc : c ∈ p.callables) : c.Shaped := by
  have hnodes : ∀ node ∈ statementsNodes p.body, node.parserShaped = true := List.all_eq_true.mp h
  have hbodies := statements_bodies_have p.body hnodes
  have hmain : ∀ node ∈ p.main.body.nodes, node.parserShaped = true := hnodes
  exact cons hmain (hbodies.1.append hbodies.2) c hc

end ScriptIr.Tree
