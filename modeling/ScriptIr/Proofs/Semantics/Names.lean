import ScriptIr.Proofs.Semantics.Growth

/-!
# Names entering scopes

Each way in which a name enters a scope changes what the scope declares at that name only. Nothing
else changes, and a name that enters with the slot it has already changes nothing at all.

* `Entered`: a name has entered a scope with a slot.
-/
namespace ScriptIr

open Code Scope

theorem Scope.Arena.Grows.bodies_eq {a b : Arena} {k : ScopeId} {free : Prop}
    (h : a.Grows k free b) (hsize : b.scopes.size = a.scopes.size) : b.bodies = a.bodies := by
  unfold Arena.bodies
  rw [hsize]
  refine List.filter_congr fun l hl => ?_
  rw [h.kind l (List.mem_range.mp hl)]

namespace Lower

variable {k : ScopeId} {s t : State} {name : String} {constant : Bool} {slot : InstId} {x : Unit}

/-- Between two states a name enters a scope, in the given slot. -/
structure Entered (k : ScopeId) (name : String) (slot : InstId) (s t : State) : Prop where
  module : t.module = s.module
  grows : s.scopes.Grows k True t.scopes
  bodies : t.scopes.bodies = s.scopes.bodies
  own : ∀ other, (t.scopes.get k).own? other =
    if other = name then some (.cell slot) else (s.scopes.get k).own? other

namespace Entered

theorem grown (h : Entered k name slot s t) (B : FunctionSpec) (f b : Nat) : s.Grows B f k True b [] t :=
  .of_module h.module h.grows (congrArg List.length h.bodies) b

theorem same (h : Entered k name slot s t) (hown : (s.scopes.get k).own? name = some (.cell slot))
    (B : FunctionSpec) (f b : Nat) : s.Grows B f k False b [] t := by
  refine .of_module h.module { h.grows with own := fun l hl _ => ?_ } (congrArg List.length h.bodies) b
  by_cases hlk : l = k
  · subst hlk
    funext other
    rw [h.own]
    split
    · next he => rw [he, hown]
    · rfl
  · exact h.grows.own l hl fun _ => hlk

theorem of_put_locals (d : Declaration) (hm : t.module = s.module)
    (hp : (s.scopes.get k).params.has name = false) (hr : (s.scopes.get k).isRest name = false)
    (h : s.scopes.Replaced k
      { s.scopes.get k with locals := (s.scopes.get k).locals.put name d } t.scopes) :
    Entered k name d.slot s t := by
  have hown := own?_put_locals hp hr (d := d)
  have hgrows : s.scopes.Grows k True t.scopes := by
    refine h.grows rfl rfl rfl rfl ⟨rfl, rfl⟩ (fun other ho => ?_) fun other ho => ?_
    · rw [hown]
      split
      · rfl
      · exact ho
    · rw [Table.has_eq_isSome] at ho ⊢
      rw [Table.find?_put]
      split
      · rfl
      · exact ho
  exact ⟨hm, hgrows, hgrows.bodies_eq h.size, fun other => by rw [h.here, hown]⟩

end Entered

section

variable (hk : k < s.scopes.scopes.size)
include hk

/-- A declaration that succeeds puts the name in a slot, which is the given one or else the one that
the name was announced with. -/
theorem declare_ok {given : Option InstId}
    (h : naming (Naming.declare k name given constant) s = .ok slot t) :
    Entered k name slot s t ∧ (t.scopes.get k).rest = (s.scopes.get k).rest ∧
      (∀ v, given = some v → slot = v) ∧
      (given = none → (s.scopes.get k).own? name = some (.cell slot)) := by
  unfold naming at h
  split at h
  · next a arena hrun =>
    cases h
    rw [Naming.declare_eq] at hrun
    cases htaken : (s.scopes.get k).params.has name || (s.scopes.get k).isRest name with
    | true =>
      rw [htaken] at hrun
      cases hrun
    | false =>
      obtain ⟨hp, hr⟩ := Bool.or_eq_false_iff.mp htaken
      simp only [htaken, Bool.false_eq_true, if_false] at hrun
      have hreplaced (slot : InstId) := Arena.replaced_modify hk fun scope =>
        { scope with locals := scope.locals.put name { slot, forward := false, constant } }
      have hentered : ∀ slot : InstId, Entered k name slot s { s with
            scopes := s.scopes.modify k fun scope =>
              { scope with locals := scope.locals.put name { slot, forward := false, constant } } } :=
        fun slot => .of_put_locals { slot, forward := false, constant } rfl hp hr (hreplaced slot)
      cases hd : (s.scopes.get k).locals.find? name with
      | some d =>
        simp only [hd] at hrun
        cases hf : d.forward with
        | false =>
          rw [hf] at hrun
          cases hrun
        | true =>
          rw [hf] at hrun
          cases hrun
          refine ⟨hentered _, (congrArg rest (hreplaced _).here :), fun v hv => by rw [hv]; rfl,
            fun hnone => ?_⟩
          rw [own?_of_local hp hr hd, hnone, Option.getD_none]
      | none =>
        simp only [hd] at hrun
        cases given with
        | none => cases hrun
        | some v =>
          cases hrun
          exact ⟨hentered _, (congrArg rest (hreplaced _).here :), fun w hw => by cases hw; rfl,
            nofun⟩
  · cases h

/-- An announcement that succeeds puts a new name in a slot. -/
theorem forwardDeclare_ok (h : naming (Naming.forwardDeclare k name slot constant) s = .ok x t) :
    Entered k name slot s t ∧ t.scopes.hasLocal k name = true := by
  have hstep := Naming.forwardDeclare_sound hk name slot constant
  unfold naming at h
  split at h
  · next a arena hrun =>
    rw [hrun] at hstep
    cases h
    obtain ⟨hnone, hr⟩ := hstep
    obtain ⟨hp, hrest, -⟩ := untaken_of_own? hnone
    have hentered : Entered k name slot s { s with scopes := arena } :=
      .of_put_locals { slot, forward := true, constant } rfl hp hrest hr
    refine ⟨hentered, ?_⟩
    unfold Arena.hasLocal
    rw [hr.here, Table.has_eq_isSome, Table.find?_put, if_pos rfl]
    rfl
  · cases h

theorem setRest_ok (hrest : (s.scopes.get k).rest = none)
    (h : naming (Naming.setRest k name slot) s = .ok x t) : Entered k name slot s t := by
  have hstep := Naming.setRest_sound hk name slot
  unfold naming at h
  split at h
  · next a arena hrun =>
    rw [hrun] at hstep
    cases h
    obtain ⟨hnone, hr⟩ := hstep
    have hown : ∀ other, own? { s.scopes.get k with rest := some (name, slot) } other
        = if other = name then some (.cell slot) else (s.scopes.get k).own? other :=
      own?_set_rest hrest hnone
    have hgrows : s.scopes.Grows k True arena := by
      refine hr.grows rfl rfl rfl rfl ⟨rfl, rfl⟩ (fun other ho => ?_) fun _ ho => ho
      rw [hown]
      split
      · rfl
      · exact ho
    exact ⟨rfl, hgrows, hgrows.bodies_eq hr.size, fun other => by rw [hr.here, hown]⟩
  · cases h

end

end Lower

end ScriptIr
