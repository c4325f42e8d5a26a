import Mathlib.Data.Nat.Basic
import ScriptIr.Scope.Arena

/-!
# Chains of scopes

A scope's parent is older than the scope, so its chain of ancestors ends. The block scopes of a chain
up to the body of the function are the frames that are open in it.

* `scopesToFunction_of_above`: the number of open frames drops by the number of scopes left.
* `exists_above_of_targetAlong`: the target of a jump belongs to the scope that the jump ends in.
* `exit?`: where a jump out of a scope goes.
-/
namespace ScriptIr.Scope

open List

open Code (BlockId)

namespace Arena

variable {a : Arena} {k x p : ScopeId} {n : Nat}

/-! ## Reading a changed arena -/

theorem get_eq (a : Arena) (k : ScopeId) : a.get k = (a.scopes[k]?).getD {} := by
  unfold get
  rw [Array.getD_eq_getD_getElem?]

theorem get_of_size_le (h : a.scopes.size ≤ k) : a.get k = {} := by
  rw [get_eq, Array.getElem?_eq_none h]
  rfl

@[simp] theorem size_modify (a : Arena) (k : ScopeId) (change : Scope → Scope) :
    (a.modify k change).scopes.size = a.scopes.size := by
  simp [modify]

theorem get_modify (a : Arena) (k x : ScopeId) (change : Scope → Scope) : (a.modify k change).get x =
      if x = k ∧ k < a.scopes.size then change (a.get k) else a.get x := by
  simp only [get_eq, modify, Array.getElem?_modify]
  by_cases hx : x = k
  · subst hx
    by_cases hk : x < a.scopes.size
    · simp [hk]
    · simp [hk]
  · simp [hx, Ne.symm hx]

theorem get_modify_same (h : k < a.scopes.size) (change : Scope → Scope) :
    (a.modify k change).get k = change (a.get k) := by
  rw [get_modify, if_pos ⟨rfl, h⟩]

theorem get_modify_other (a : Arena) (h : x ≠ k) (change : Scope → Scope) :
    (a.modify k change).get x = a.get x := by
  rw [get_modify, if_neg (fun hx => h hx.1)]

@[simp] theorem size_push (a : Arena) (parent : Option ScopeId) (kind : Kind) :
    (a.push parent kind).2.scopes.size = a.scopes.size + 1 := by
  simp [push]

theorem get_push (a : Arena) (parent : Option ScopeId) (kind : Kind) (x : ScopeId) :
    (a.push parent kind).2.get x =
      if x = a.scopes.size then { parent, kind } else a.get x := by
  simp only [get_eq, push, Array.getElem?_push]
  split <;> rfl

theorem lt_size_of_kind (h : (a.get k).kind = .block) : k < a.scopes.size := by
  rcases Nat.lt_or_ge k a.scopes.size with hk | hk
  · exact hk
  · rw [get_of_size_le hk] at h
    cases h

/-! ## Chains -/

theorem chain_root (h : (a.get k).parent = none) : a.chain k = [k] := by
  rw [chain]
  simp only [h]

theorem chain_inner (h : (a.get k).parent = some p) (hp : p < k) : a.chain k = k :: a.chain p := by
  rw [chain]
  simp only [h, if_pos hp]

theorem exists_chain_eq_cons (a : Arena) (k : ScopeId) : ∃ outer, a.chain k = k :: outer := by
  rw [chain]
  split
  · exact ⟨_, rfl⟩
  · split <;> exact ⟨_, rfl⟩

theorem mem_chain_self (a : Arena) (k : ScopeId) : k ∈ a.chain k := by
  obtain ⟨outer, hchain⟩ := exists_chain_eq_cons a k
  rw [hchain]
  exact mem_cons_self

theorem chain_congr {b : Arena} (h : ∀ x, x ≤ k → (b.get x).parent = (a.get x).parent) :
    b.chain k = a.chain k := by
  induction k using Nat.strongRecOn with
  | ind k ih =>
    rw [chain, chain, h k (Nat.le_refl k)]
    split
    · rfl
    · next p _ =>
      split
      · next hp => rw [ih p hp fun x hx => h x (Nat.le_trans hx (Nat.le_of_lt hp))]
      · rfl

theorem le_of_mem_chain (h : x ∈ a.chain k) : x ≤ k := by
  induction k using Nat.strongRecOn with
  | ind k ih =>
    rw [chain] at h
    split at h
    · exact Nat.le_of_eq (mem_singleton.mp h)
    · next p _ =>
      split at h
      · next hp =>
        rcases mem_cons.mp h with rfl | hx
        · exact Nat.le_refl _
        · exact Nat.le_trans (ih p hp hx) (Nat.le_of_lt hp)
      · exact Nat.le_of_eq (mem_singleton.mp h)

/-! ## Frames -/

/-- `Above n k x`: scope `x` is reached from `k` by leaving `n` block scopes. -/
inductive Above (a : Arena) : Nat → ScopeId → ScopeId → Prop where
  | refl (k : ScopeId) : Above a 0 k k
  | step {n : Nat} {k p x : ScopeId} : (a.get k).kind = .block → (a.get k).parent = some p → p < k →
      Above a n p x → Above a (n + 1) k x

theorem scopesToFunction_function (h : (a.get k).kind = .function) : a.scopesToFunction k = 0 := by
  obtain ⟨outer, hchain⟩ := exists_chain_eq_cons a k
  simp [scopesToFunction, hchain, h]

theorem scopesToFunction_block (h : (a.get k).kind = .block) (hp : (a.get k).parent = some p)
    (hlt : p < k) : a.scopesToFunction k = a.scopesToFunction p + 1 := by
  unfold scopesToFunction
  rw [chain_inner hp hlt, takeWhile_cons_of_pos (by simp [h]), length_cons]

theorem scopesToFunction_of_above (h : a.Above n k x) :
    a.scopesToFunction k = n + a.scopesToFunction x := by
  induction h with
  | refl k => omega
  | step hk hp hlt _ ih =>
    rw [scopesToFunction_block hk hp hlt, ih]
    omega

/-- In an arena whose block scopes have older parents, leaving all frames that are open in a scope
ends in the body of a function. -/
theorem exists_above_function (h : ∀ x, (a.get x).kind = .block → ∃ p, (a.get x).parent = some p ∧ p < x) :
    ∃ x, a.Above (a.scopesToFunction k) k x ∧ (a.get x).kind = .function := by
  induction k using Nat.strongRecOn with
  | ind k ih =>
    cases hk : (a.get k).kind with
    | function =>
      rw [scopesToFunction_function hk]
      exact ⟨k, .refl k, hk⟩
    | block =>
      obtain ⟨p, hp, hlt⟩ := h k hk
      obtain ⟨x, hx, hfun⟩ := ih p hlt
      rw [scopesToFunction_block hk hp hlt]
      exact ⟨x, .step hk hp hlt hx, hfun⟩

theorem Above.mem_chain (h : a.Above n k x) : x ∈ a.chain k := by
  induction h with
  | refl k => exact mem_chain_self a k
  | step _ hp hlt _ ih =>
    rw [chain_inner hp hlt]
    exact mem_cons_of_mem _ ih

theorem Above.induct {P : ScopeId → Prop} (h : a.Above n k x) (hk : P k)
    (step : ∀ k p, (a.get k).kind = .block → (a.get k).parent = some p → P k → P p) : P x := by
  induction h with
  | refl k => exact hk
  | step hb hp _ _ ih => exact ih (step _ _ hb hp hk)

theorem exists_above_of_targetAlong {target : Scope → Option BlockId} {m : Nat} {t : BlockId}
    (h : a.targetAlong target (a.chain k) n = some (t, m)) :
    ∃ j x, m = n + j ∧ a.Above j k x ∧ target (a.get x) = some t := by
  induction k using Nat.strongRecOn generalizing n with
  | ind k ih =>
    have hhere : ∀ outer, a.targetAlong target (k :: outer) n = some (t, m) →
        (m = n ∧ target (a.get k) = some t) ∨
          ((a.get k).kind = .block ∧ a.targetAlong target outer (n + 1) = some (t, m)) := by
      intro outer h
      unfold targetAlong at h
      split at h
      · next b hb =>
        cases h
        exact .inl ⟨rfl, hb⟩
      · split at h
        · cases h
        · next hkind =>
          refine .inr ⟨?_, h⟩
          cases hc : (a.get k).kind with
          | function => exact absurd hc hkind
          | block => rfl
    have hdone : m = n ∧ target (a.get k) = some t →
        ∃ j x, m = n + j ∧ a.Above j k x ∧ target (a.get x) = some t :=
      fun ⟨hm, ht⟩ => ⟨0, k, hm, .refl k, ht⟩
    rw [chain] at h
    split at h
    · rcases hhere [] h with hd | ⟨_, hout⟩
      · exact hdone hd
      · cases hout
    · next p hp =>
      split at h
      · next hlt =>
        rcases hhere _ h with hd | ⟨hb, hout⟩
        · exact hdone hd
        · obtain ⟨j, x, hm, hx, ht⟩ := ih p hlt hout
          exact ⟨j + 1, x, by omega, .step hb hp hlt hx, ht⟩
      · rcases hhere [] h with hd | ⟨_, hout⟩
        · exact hdone hd
        · cases hout

/-! ## Jumps -/

def exit? (a : Arena) (target : Scope → Option BlockId) (k : ScopeId) : Option BlockId :=
  (a.targetAlong target (a.chain k) 0).map (·.1)

variable {b : Arena} {target : Scope → Option BlockId}

theorem map_targetAlong (along : List ScopeId) (n m : Nat) :
    (a.targetAlong target along n).map (·.1) = (a.targetAlong target along m).map (·.1) := by
  induction along generalizing n m with
  | nil => rfl
  | cons x along ih =>
    unfold targetAlong
    cases target (a.get x) with
    | some block => rfl
    | none =>
      dsimp only
      split
      · rfl
      · exact ih _ _

theorem exit?_here {block : BlockId} (h : target (a.get k) = some block) :
    a.exit? target k = some block := by
  obtain ⟨outer, houter⟩ := exists_chain_eq_cons a k
  unfold exit? targetAlong
  rw [houter]
  simp only [h, Option.map_some]

theorem exit?_outer (h : target (a.get k) = none) (hkind : (a.get k).kind = .block)
    (hp : (a.get k).parent = some p) (hlt : p < k) : a.exit? target k = a.exit? target p := by
  unfold exit?
  rw [chain_inner hp hlt, targetAlong]
  simp only [h, hkind, reduceCtorEq, if_false]
  exact map_targetAlong _ _ _

/-- A function cannot be left by a jump. -/
theorem exit?_function (h : target (a.get k) = none) (hkind : (a.get k).kind = .function) :
    a.exit? target k = none := by
  obtain ⟨outer, hchain⟩ := exists_chain_eq_cons a k
  simp [exit?, hchain, targetAlong, h, hkind]

theorem targetAlong_congr {along : List ScopeId}
    (h : ∀ x ∈ along, target (b.get x) = target (a.get x) ∧ (b.get x).kind = (a.get x).kind) :
    b.targetAlong target along n = a.targetAlong target along n := by
  induction along generalizing n with
  | nil => rfl
  | cons x along ih =>
    unfold targetAlong
    rw [(h x mem_cons_self).1, (h x mem_cons_self).2]
    rw [ih fun y hy => h y (mem_cons_of_mem _ hy)]

end Arena

end ScriptIr.Scope
