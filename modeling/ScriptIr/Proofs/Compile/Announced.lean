import ScriptIr.Proofs.Compile.Declared

/-!
# Announced names are bound

Lists of statements and the heads of loops announce names before the code that binds them. A pattern binds
the names that stand in it, in order, and stores a value for each. So the names that were announced are
exactly those that are bound later, and none is left over.

* `announced_names_are_bound`: so it is after lists and the heads of loops.
-/
namespace ScriptIr

namespace Scope

/-- Between the first table and the second some names are announced. In the third they are declared, in the
slots and as the constants that they were announced as, and no other announced name has come up. -/
structure Settles (t u v : Table Declaration) : Prop where
  promoted : ∀ name e, u.find? name = some e → e.forward →
    t.find? name = some e ∨ v.find? name = some { e with forward := false }
  none_left : ∀ name e, v.find? name = some e → e.forward → t.find? name = some e

theorem Enters.settles {t u v : Table Declaration} {ms ns : List (String × Bool)} (h : Enters true t ms u)
    (h' : Declares u ns v) (hsub : ms ⊆ ns) : Settles t u v where
  promoted name e he hforward := by
    by_cases hmem : name ∈ ms.map (·.1)
    · obtain ⟨⟨_, constant⟩, hin, rfl⟩ := List.mem_map.mp hmem
      obtain ⟨slot, hfind, -⟩ := h.find?_of_mem hin
      obtain ⟨slot', hfind', hkeeps⟩ := h'.find?_of_mem (hsub hin)
      cases hfind.symm.trans he
      rw [hkeeps _ hfind] at hfind'
      exact .inr hfind'
    · exact .inl (h.find?_of_not_mem hmem ▸ he)
  none_left name e he hforward := by
    have hnot : name ∉ ns.map (·.1) := fun hmem => by
      obtain ⟨⟨_, constant⟩, hin, rfl⟩ := List.mem_map.mp hmem
      obtain ⟨slot, hfind, -⟩ := h'.find?_of_mem hin
      cases hfind.symm.trans he
      cases hforward
    rw [h'.find?_of_not_mem hnot, h.find?_of_not_mem fun hmem => hnot (List.map_subset _ hsub hmem)] at he
    exact he

/-- No name of the table is only announced. -/
def AllDeclared (t : Table Declaration) : Prop := ∀ name e, t.find? name = some e → e.forward = false

theorem Settles.allDeclared {t u v : Table Declaration} (h : Settles t u v) (ht : AllDeclared t) :
    AllDeclared v := fun name e he => by
  by_contra hforward
  rw [Bool.not_eq_false] at hforward
  exact Bool.false_ne_true ((ht name e (h.none_left name e he hforward)).symm.trans hforward)

end Scope

namespace Lower

open Code List ScriptIr.Tree

theorem announced_subset (ss : List Statement) : ss.flatMap Statement.announced ⊆
    ss.flatMap Statement.hoisted ++ ss.flatMap Statement.leaked := by
  intro n hn
  obtain ⟨m, hm, hn⟩ := mem_flatMap.mp hn
  rw [mem_append, mem_flatMap, mem_flatMap]
  cases m with
  | declaration d => exact .inr ⟨_, hm, hn⟩
  | _ => exact .inl ⟨_, hm, hn⟩

section Settled

variable {ctx : Ctx} {block last : BlockId} {s t : State} (hscope : ctx.scope < s.scopes.scopes.size)

include hscope

theorem listCode_settles {ss : List Statement} (h : listCode (items ss) ctx block s = .ok last t) :
    ∃ u, announceItems ctx block (items ss) s = .ok () u ∧
      Scope.Settles (s.scopes.get ctx.scope).locals (u.scopes.get ctx.scope).locals
        (t.scopes.get ctx.scope).locals := by
  have hlist : beforeMember ss [] ctx block s = .ok last t := by rwa [beforeMember, append_nil]
  obtain ⟨u, hannounce, -, hannounced, hdeclared⟩ := beforeMember_enters hlist hscope
  rw [append_nil] at hannounce hannounced hdeclared
  exact ⟨u, hannounce, hannounced.settles hdeclared (announced_subset ss)⟩

theorem forHead_settles {d : Declaration} {vars : List LoopVariable}
    (h : forHead (.declaration d) ctx block s = .ok (last, vars) t) :
    ∃ u, announce ctx block d s = .ok () u ∧
      Scope.Settles (s.scopes.get ctx.scope).locals (u.scopes.get ctx.scope).locals
        (t.scopes.get ctx.scope).locals := by
  obtain ⟨_, u, hannounce, h⟩ := run_bind h
  obtain ⟨hsize, hannounced⟩ := binds_announce d ctx block s _ u hannounce hscope
  obtain ⟨_, v, hdeclare, h⟩ := run_bind h
  cases h
  have hdeclared := binds_statement (.declaration d) ctx block u _ _ hdeclare (hscope.trans_le hsize)
  exact ⟨u, hannounce, hannounced.settles hdeclared.2 (Subset.refl _)⟩

theorem declaredElement_settles {d : Declaration} {element : InstId}
    (h : declaredElement d ctx block element s = .ok last t) :
    ∃ u, announce ctx block d s = .ok () u ∧
      Scope.Settles (s.scopes.get ctx.scope).locals (u.scopes.get ctx.scope).locals
        (t.scopes.get ctx.scope).locals := by
  obtain ⟨kind, ds, loc⟩ := d
  obtain ⟨_, s', hcheck, hbind⟩ := run_bind h
  have hs : s' = s := by
    unfold checkBlockWide at hcheck
    split at hcheck <;> cases hcheck
    rfl
  subst hs
  clear h hcheck
  match ds with
  | [] | .mk .. :: .mk .. :: _ => cases hbind
  | [.mk p init] =>
    obtain ⟨_, u, hannounce, h⟩ := run_bind hbind
    obtain ⟨hsize, hannounced⟩ := binds_announce _ ctx block s' _ u hannounce hscope
    have hdeclared := binds_pattern p ctx block element _ u _ _ h (hscope.trans_le hsize)
    have hnames : (Declaration.mk kind [.mk p init] loc).boundNames = p.boundNames := append_nil _
    rw [hnames] at hannounced
    exact ⟨u, hannounce, hannounced.settles hdeclared.2 (Subset.refl _)⟩

/-- Blocks, functions and loops announce names in a scope that was opened for them. As nothing was
announced there before, every name of the scope is declared in the end. -/
theorem allDeclared_of_opened (hopened : Scope.AllDeclared (s.scopes.get ctx.scope).locals) :
    (∀ ss, listCode (items ss) ctx block s = .ok last t →
      Scope.AllDeclared (t.scopes.get ctx.scope).locals) ∧
    (∀ d vars, forHead (.declaration d) ctx block s = .ok (last, vars) t →
      Scope.AllDeclared (t.scopes.get ctx.scope).locals) ∧
    (∀ d element, declaredElement d ctx block element s = .ok last t →
      Scope.AllDeclared (t.scopes.get ctx.scope).locals) := by
  refine ⟨fun ss h => ?_, fun d vars h => ?_, fun d element h => ?_⟩
  · obtain ⟨_, -, hsettles⟩ := listCode_settles hscope h
    exact hsettles.allDeclared hopened
  · obtain ⟨_, -, hsettles⟩ := forHead_settles hscope h
    exact hsettles.allDeclared hopened
  · obtain ⟨_, -, hsettles⟩ := declaredElement_settles hscope h
    exact hsettles.allDeclared hopened

end Settled

theorem newScope_allDeclared {parent : Option Scope.ScopeId} {kind : Scope.Kind} {k : Scope.ScopeId}
    {s t : State} (h : newScope parent kind s = .ok k t) :
    k < t.scopes.scopes.size ∧ Scope.AllDeclared (t.scopes.get k).locals := by
  cases h
  have hget := s.scopes.get_push parent kind s.scopes.scopes.size
  rw [if_pos rfl] at hget
  refine ⟨by simp, fun name e he => ?_⟩
  cases (congrArg (·.locals.find? name) hget).symm.trans he

/-- **Announced names.** A pattern binds its names in order, and a bound name has its value stored in the
slot it was announced with. Behind a list of statements or the head of a loop, the names announced at
its start are declared as they were announced, and no other name has been left announced. -/
theorem announced_names_are_bound (ctx : Ctx) (block last : BlockId) (s t : State)
    (hscope : ctx.scope < s.scopes.scopes.size) :
    (∀ p value constant, pattern p ctx block value constant s = .ok last t →
      Bound ctx constant (patternDefaults p) p.boundNames s t ∧
        Scope.Declares (s.scopes.get ctx.scope).locals (p.boundNames.map (·, constant))
          (t.scopes.get ctx.scope).locals) ∧
    (∀ name value constant, bindName name ctx block value constant s = .ok last t →
      Stores ctx block name value constant s t) ∧
    (∀ ss, listCode (items ss) ctx block s = .ok last t →
      ∃ u, announceItems ctx block (items ss) s = .ok () u ∧
        Scope.Settles (s.scopes.get ctx.scope).locals (u.scopes.get ctx.scope).locals
          (t.scopes.get ctx.scope).locals) ∧
    (∀ d vars, forHead (.declaration d) ctx block s = .ok (last, vars) t →
      ∃ u, announce ctx block d s = .ok () u ∧
        Scope.Settles (s.scopes.get ctx.scope).locals (u.scopes.get ctx.scope).locals
          (t.scopes.get ctx.scope).locals) ∧
    (∀ d element, declaredElement d ctx block element s = .ok last t →
      ∃ u, announce ctx block d s = .ok () u ∧
        Scope.Settles (s.scopes.get ctx.scope).locals (u.scopes.get ctx.scope).locals
          (t.scopes.get ctx.scope).locals) := by
  refine ⟨fun p value constant h => ?_, fun _ _ _ h => bindName_stores h,
    fun _ h => listCode_settles hscope h, fun _ _ h => forHead_settles hscope h,
    fun _ _ h => declaredElement_settles hscope h⟩
  have hbound := binding_pattern p ctx block value constant s last t h
  exact ⟨hbound, (hbound.enters hscope).2⟩

def twoDeclarations : List Statement :=
  [.declaration (.mk .constant [.mk (.array [some (.identifier ⟨"a", none⟩),
    some (.identifier ⟨"b", none⟩)]) (some (.this none))] none), declares "c"]

theorem twoDeclarations_bound : ∃ last t, listCode (items twoDeclarations) ⟨0, 0⟩ 0 freshFunction = .ok last t ∧
    (∃ u, announceItems ⟨0, 0⟩ 0 (items twoDeclarations) freshFunction = .ok () u ∧
      Scope.Settles (freshFunction.scopes.get 0).locals (u.scopes.get 0).locals (t.scopes.get 0).locals) ∧
    (t.scopes.get 0).locals.find? "b" = some ⟨1, false, true⟩ := by
  have hrun : (match listCode (items twoDeclarations) ⟨0, 0⟩ 0 freshFunction with
      | .ok _ t => decide ((t.scopes.get 0).locals.find? "b" = some ⟨1, false, true⟩)
      | .error .. => false) = true := by decide +kernel
  cases h : listCode (items twoDeclarations) ⟨0, 0⟩ 0 freshFunction with
  | error e t => rw [h] at hrun; cases hrun
  | ok last t =>
    rw [h] at hrun
    exact ⟨last, t, rfl, (announced_names_are_bound ⟨0, 0⟩ 0 last freshFunction t Nat.zero_lt_one).2.2.1 _ h,
      of_decide_eq_true hrun⟩

end Lower

end ScriptIr
