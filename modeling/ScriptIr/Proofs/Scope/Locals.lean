import ScriptIr.Proofs.Scope.History

/-!
# Which names scopes declare

Only two operations declare names, and both in a scope that they are given. All others leave the names
of every scope as they are.
-/
namespace ScriptIr.Scope

open Code (InstId)

/-- From one arena to the next nothing is declared in the scopes below `low`. -/
structure Arena.Spares (low : Nat) (a b : Arena) : Prop where
  size : a.scopes.size ≤ b.scopes.size
  locals : ∀ k < low, (b.get k).locals = (a.get k).locals

/-- A computation declares nothing in the scopes below `low`. -/
def Naming.Spares (low : Nat) (x : Naming α) : Prop :=
  ∀ a r b, low ≤ a.scopes.size → x a = .ok r b → a.Spares low b

variable {low : Nat} {a b c : Arena} {k : ScopeId} {name : String} {slot : InstId} {constant : Bool}

namespace Arena

theorem Spares.refl (low : Nat) (a : Arena) : a.Spares low a := ⟨Nat.le_refl _, fun _ _ => rfl⟩

theorem Spares.trans (h : a.Spares low b) (h' : b.Spares low c) : a.Spares low c :=
  ⟨Nat.le_trans h.size h'.size, fun k hk => (h'.locals k hk).trans (h.locals k hk)⟩

theorem Spares.modify {change : Scope → Scope} (h : low ≤ k ∨ ∀ s, (change s).locals = s.locals) :
    a.Spares low (a.modify k change) := by
  refine ⟨by simp, fun x hx => ?_⟩
  rw [get_modify]
  split
  · next hk =>
    obtain rfl := hk.1
    exact h.elim (fun h => absurd hx (Nat.not_lt.mpr h)) fun h => h _
  · rfl

theorem Spares.push (h : low ≤ a.scopes.size) (parent : Option ScopeId) (kind : Kind) :
    a.Spares low (a.push parent kind).2 := by
  refine ⟨by simp, fun x hx => ?_⟩
  rw [get_push, if_neg (Nat.ne_of_lt (Nat.lt_of_lt_of_le hx h))]

end Arena

namespace Naming

open Arena

theorem spares_lookup {tolerant upper : Bool} : Spares low (lookup k name tolerant upper) := by
  intro a r b _ h
  rw [lookup_eq] at h
  generalize a.chain k = along at h
  induction along generalizing r b tolerant upper with
  | nil => cases h; exact .refl low _
  | cons x outer ih =>
    rw [lookupAlong_cons] at h
    split at h
    · split at h
      · cases h; exact .refl low _
      · cases h
    · cases h; exact .refl low _
    · split at h
      · cases h
      · next hr => cases h; exact ih _ _ hr
      · next hr => cases h; exact (ih _ _ hr).trans (.modify (.inr fun _ => rfl))

theorem spares_setParams {names : List String} : Spares low (setParams k names) := by
  intro a r b hlow h
  clear hlow
  unfold setParams at h
  generalize 0 = index at h
  induction names generalizing a index with
  | nil => cases h; exact .refl low _
  | cons name names ih =>
    rw [setParamsFrom_cons] at h
    split at h
    · cases h
    · refine .trans (.modify (.inr ?_)) (ih _ _ h)
      exact fun _ => rfl

theorem spares_setRest : Spares low (setRest k name slot) := by
  intro a r b _ h
  rw [setRest_eq] at h
  split at h <;> cases h
  exact .modify (.inr fun _ => rfl)

theorem spares_forwardDeclare (hk : low ≤ k) : Spares low (forwardDeclare k name slot constant) := by
  intro a r b _ h
  rw [forwardDeclare_eq] at h
  split at h <;> cases h
  exact .modify (.inl hk)

/-- A name that is declared receives the slot that was given, or else the one it was announced with. -/
theorem declare_eq_ok {slot : Option InstId} {v : InstId} (h : declare k name slot constant a = .ok v b) :
    (b = a.modify k fun s => { s with locals := s.locals.put name ⟨v, false, constant⟩ }) ∧
      match (a.get k).locals.find? name with
      | some d => d.forward ∧ v = slot.getD d.slot
      | none => slot = some v := by
  rw [declare_eq] at h
  split at h
  · cases h
  · split at h
    next hd =>
      rw [hd]
      split at h
      next hf =>
        cases h
        exact ⟨rfl, hf, rfl⟩
      next => cases h
    next hd =>
      rw [hd]
      cases h
      exact ⟨rfl, rfl⟩
    next => cases h

theorem spares_declare (hk : low ≤ k) {slot : Option InstId} :
    Spares low (declare k name slot constant) := by
  intro a r b _ h
  rw [(declare_eq_ok h).1]
  exact .modify (.inl hk)

end Naming

end ScriptIr.Scope
