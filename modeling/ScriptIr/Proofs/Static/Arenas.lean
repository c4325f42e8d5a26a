import ScriptIr.Proofs.Scope.History
import ScriptIr.Proofs.Static.Findings

/-!
# Scopes and environments

How the scopes of an arena stand to the names in scope at a place of a tree. A capture keeps the answer
that the scopes further out gave when the name was looked up first. Names enter a scope only when it is
the newest one, so that answer stays right.

* `Scope.standing?`: whether a name that a scope declares has been reached, and whether it is constant.
* `Arena.constant?`: what a lookup should answer; `Arena.Honest`: captures answer it too.
* `Arena.Models`: a scope of an arena is as an environment says.
-/
namespace ScriptIr

open Code Option List Static

namespace Scope

variable {constant : Bool} {r : Resolved} {name : String} {along : List ScopeId}

/-! ## What a scope declares -/

/-- How a name stands that a scope declares. -/
structure Standing where
  /-- Whether the declaration has yet to be reached. -/
  forward : Bool
  constant : Bool
  deriving DecidableEq, Repr, Inhabited

def standing? (s : Scope) (name : String) : Option Standing :=
  match s.params.find? name with
  | some _ => some ⟨false, false⟩
  | none =>
    match s.rest.filter (fun r => r.1 == name) with
    | some _ => some ⟨false, false⟩
    | none => (s.locals.find? name).map fun d => ⟨d.forward, d.constant⟩

def ownConstant? (s : Scope) (name : String) : Option Bool := (s.standing? name).map (·.constant)

/-- The place of a scope: its parent, its kind, and where jumps to the end and to the next round go. -/
abbrev Frame := Option ScopeId × Kind × Option BlockId × Option BlockId

def frame (s : Scope) : Frame := (s.parent, s.kind, s.breakTarget, s.continueTarget)

variable {s s' : Scope}

theorem owns_eq_isSome_standing? (s : Scope) (name : String) :
    s.owns name = (s.standing? name).isSome := by
  unfold owns standing?
  rw [Table.has_eq_isSome, Table.has_eq_isSome, isRest_eq]
  cases s.params.find? name with
  | some i => rfl
  | none =>
    cases s.rest.filter (fun r => r.1 == name) with
    | some r => rfl
    | none => cases s.locals.find? name <;> rfl

/-- A name that has yet to be reached is declared by the scope, and not as an argument. -/
theorem locals_of_forward (h : s.standing? name = some ⟨true, constant⟩) :
    s.params.has name = false ∧ s.isRest name = false ∧
      ∃ d, s.locals.find? name = some d ∧ d.forward = true := by
  unfold standing? at h
  rw [Table.has_eq_isSome, isRest_eq]
  split at h
  · cases h
  · split at h
    · cases h
    · next hp _ hr =>
      obtain ⟨d, hd, hst⟩ := map_eq_some_iff.mp h
      exact ⟨by rw [hp]; rfl, by rw [hr]; rfl, d, hd, (Standing.mk.inj hst).1⟩

/-- What a scope knows about a name is what it declares, or else a capture. -/
theorem binding?_standing (hs : s.Indexed) (h : s.binding? name = some r) :
    (∃ st, s.standing? name = some st ∧ r.constant = st.constant ∧ r.binding.isForward = st.forward) ∨
    (s.standing? name = none ∧ r.binding.isForward = false ∧
      ∃ c ∈ s.captures, c.name = name ∧ r.constant = c.constant) := by
  unfold binding? at h
  unfold standing?
  cases hp : s.params.find? name with
  | some index =>
    simp only [hp, some.injEq] at h
    exact .inl ⟨_, rfl, by rw [← h], by rw [← h]; rfl⟩
  | none =>
    simp only [hp] at h
    cases hr : s.rest.filter (fun r => r.1 == name) with
    | some e =>
      simp only [hr, some.injEq] at h
      exact .inl ⟨_, rfl, by rw [← h], by rw [← h]; rfl⟩
    | none =>
      simp only [hr] at h
      cases hl : s.locals.find? name with
      | some d =>
        simp only [hl, some.injEq] at h
        refine .inl ⟨⟨d.forward, d.constant⟩, rfl, by rw [← h], ?_⟩
        rw [← h]
        cases d.forward <;> rfl
      | none =>
        simp only [hl] at h
        obtain ⟨i, c, hc, hname, rfl⟩ := hs.getElem?_capture h
        exact .inr ⟨rfl, rfl, c, mem_of_getElem? hc, hname, rfl⟩

theorem standing?_eq_none_of_binding? (h : s.binding? name = none) : s.standing? name = none := by
  have howns := own?_eq_none_iff.mp (own?_eq_none_of_binding? h)
  rwa [owns_eq_isSome_standing?, isSome_eq_false_iff, isNone_iff_eq_none] at howns

/-! ## How names enter a scope -/

theorem standing?_put_params (s : Scope) (name : String) (index : Nat) (other : String) :
    standing? { s with params := s.params.put name index } other =
      if other = name then some ⟨false, false⟩ else s.standing? other := by
  unfold standing?
  by_cases ho : other = name
  · simp [ho, Table.find?_put]
  · simp [ho, Table.find?_put]

theorem standing?_set_rest {slot : InstId} (hrest : s.rest = none) (other : String) :
    standing? { s with rest := some (name, slot) } other =
      if other = name then some ⟨false, false⟩ else s.standing? other := by
  unfold standing?
  rw [hrest]
  by_cases ho : other = name
  · subst ho
    cases s.params.find? other <;> simp [Option.filter]
  · have hb : (name == other) = false := by simpa using Ne.symm ho
    simp [Option.filter, hb, ho]

theorem standing?_put_locals {d : Declaration} (h : s.params.has name = false)
    (hr : s.isRest name = false) (other : String) :
    standing? { s with locals := s.locals.put name d } other =
      if other = name then some ⟨d.forward, d.constant⟩ else s.standing? other := by
  unfold standing?
  by_cases ho : other = name
  · subst ho
    simp only [Table.has_eq_isSome, isRest_eq, isSome_eq_false_iff, isNone_iff_eq_none] at h hr
    simp [h, hr, Table.find?_put]
  · simp [ho, Table.find?_put]

namespace Arena

variable {a b c : Arena} {k l : ScopeId} {free : Option ScopeId} {env : Env}
  {P : Arena → Prop} {loop : Bool}

/-! ## Constant names -/

def constant? (a : Arena) (k : ScopeId) (name : String) : Option Bool :=
  (a.chain k).findSome? fun l => (a.get l).ownConstant? name

theorem Sound.constant?_eq (h : a.Sound) (k : ScopeId) (name : String) : a.constant? k name =
      ((a.get k).ownConstant? name).or ((a.get k).parent.bind (a.constant? · name)) := by
  unfold constant?
  cases hp : (a.get k).parent with
  | none =>
    rw [chain_root hp, findSome?_cons]
    cases (a.get k).ownConstant? name <;> rfl
  | some p =>
    rw [h.chain_inner hp, findSome?_cons]
    cases (a.get k).ownConstant? name <;> rfl

/-- The answer depends on a scope and the older ones only. -/
theorem constant?_congr (hp : ∀ x ≤ k, (b.get x).parent = (a.get x).parent)
    (hc : ∀ x ≤ k, (b.get x).ownConstant? name = (a.get x).ownConstant? name) :
    b.constant? k name = a.constant? k name := by
  unfold constant?
  rw [chain_congr hp]
  have hall : ∀ x ∈ a.chain k, x ≤ k := fun x hx => le_of_mem_chain hx
  generalize a.chain k = along at hall
  induction along with
  | nil => rfl
  | cons x along ih =>
    rw [findSome?_cons, findSome?_cons, hc x (hall x mem_cons_self),
      ih fun y hy => hall y (mem_cons_of_mem _ hy)]

/-- Captures answer what the scopes further out would answer. -/
def Honest (a : Arena) : Prop :=
  ∀ k p c, c ∈ a.captures k → (a.get k).parent = some p → a.constant? p c.name = some c.constant

theorem honest_empty : empty.Honest := by
  intro k p c hc
  simp [empty, captures, get_of_size_le] at hc

theorem Honest.of_same (h : a.Honest) (hcaptures : ∀ x, b.captures x = a.captures x)
    (hparent : ∀ x, (b.get x).parent = (a.get x).parent)
    (hsame : ∀ x p, (a.get x).parent = some p → ∀ name, b.constant? p name = a.constant? p name) :
    b.Honest := by
  intro x p c hc hp
  rw [hcaptures] at hc
  rw [hparent] at hp
  rw [hsame x p hp]
  exact h x p c hc hp

/-! ## Growth -/

/-- An arena that has grown. Its older scopes declare what they declared before, and only in the scope
`free` may names have been reached meanwhile. -/
structure Kept (free : Option ScopeId) (a b : Arena) : Prop where
  size : a.scopes.size ≤ b.scopes.size
  frame : ∀ l < a.scopes.size, (b.get l).frame = (a.get l).frame
  constant : ∀ l < a.scopes.size, (b.get l).ownConstant? = (a.get l).ownConstant?
  standing : ∀ l < a.scopes.size, free ≠ some l → (b.get l).standing? = (a.get l).standing?
  sound : b.Sound
  honest : b.Honest

namespace Kept

theorem refl (hs : a.Sound) (hh : a.Honest) : a.Kept free a :=
  ⟨Nat.le_refl _, fun _ _ => rfl, fun _ _ => rfl, fun _ _ _ => rfl, hs, hh⟩

/-- What comes later may change what an older scope has reached only if that is free. -/
theorem trans {free' : Option ScopeId} (h : a.Kept free b) (h' : b.Kept free' c)
    (hfree : ∀ l < a.scopes.size, free' = some l → free = some l) : a.Kept free c where
  size := Nat.le_trans h.size h'.size
  frame l hl := (h'.frame l (Nat.lt_of_lt_of_le hl h.size)).trans (h.frame l hl)
  constant l hl := (h'.constant l (Nat.lt_of_lt_of_le hl h.size)).trans (h.constant l hl)
  standing l hl hne :=
    (h'.standing l (Nat.lt_of_lt_of_le hl h.size) fun he => hne (hfree l hl he)).trans
      (h.standing l hl hne)
  sound := h'.sound
  honest := h'.honest

theorem weaken (h : a.Kept none b) : a.Kept free b :=
  { h with standing := fun l hl _ => h.standing l hl (by simp) }

theorem parent (h : a.Kept free b) (hl : l < a.scopes.size) :
    (b.get l).parent = (a.get l).parent := congrArg (·.1) (h.frame l hl)

theorem constant? (h : a.Kept free b) (hl : l < a.scopes.size) (name : String) :
    b.constant? l name = a.constant? l name :=
  constant?_congr (fun _ hx => h.parent (Nat.lt_of_le_of_lt hx hl))
    fun x hx => congrFun (h.constant x (Nat.lt_of_le_of_lt hx hl)) name

theorem exit? (h : a.Kept free b) (hl : l < a.scopes.size) (target : Scope → Option BlockId)
    (htarget : ∀ s s' : Scope, s'.frame = s.frame → target s' = target s) :
    b.exit? target l = a.exit? target l := by
  unfold Arena.exit?
  rw [chain_congr fun x hx => h.parent (Nat.lt_of_le_of_lt hx hl), targetAlong_congr fun x hx => ?_]
  have hframe := h.frame x (Nat.lt_of_le_of_lt (le_of_mem_chain hx) hl)
  exact ⟨htarget _ _ hframe, congrArg (·.2.1) hframe⟩

theorem of_captured (h : a.Captured along b) (hs : b.Sound) (hh : b.Honest) : a.Kept free b where
  size := Nat.le_of_eq h.size.symm
  frame l _ := by obtain ⟨more, index, hl, _⟩ := h.get l; rw [hl]; rfl
  constant l _ := by obtain ⟨more, index, hl, _⟩ := h.get l; rw [hl]; rfl
  standing l _ _ := by obtain ⟨more, index, hl, _⟩ := h.get l; rw [hl]; rfl
  sound := hs
  honest := hh

end Kept

/-- An assertion about arenas that growth does not change. -/
def Stable (free : Option ScopeId) (P : Arena → Prop) : Prop := ∀ a b, P a → a.Kept free b → P b

theorem Stable.and {Q : Arena → Prop} (hP : Stable free P) (hQ : Stable free Q) :
    Stable free fun a => P a ∧ Q a :=
  fun a b h hk => ⟨hP a b h.1 hk, hQ a b h.2 hk⟩

theorem Stable.closed (h : Stable free P) : Stable none P :=
  fun a b hP hk => h a b hP hk.weaken

/-! ## Environments -/

/-- A scope of an arena is as an environment says. -/
structure Models (a : Arena) (k : ScopeId) (env : Env) : Prop where
  lt : k < a.scopes.size
  sound : a.Sound
  honest : a.Honest
  constants : ∀ name, a.constant? k name = env.constant? name
  pending : ∀ name, name ∈ env.pending ↔ ∃ constant, (a.get k).standing? name = some ⟨true, constant⟩

theorem Models.kept (h : a.Models k env) (hk : a.Kept free b) (hne : free ≠ some k) : b.Models k env where
  lt := Nat.lt_of_lt_of_le h.lt hk.size
  sound := hk.sound
  honest := hk.honest
  constants name := (hk.constant? h.lt name).trans (h.constants name)
  pending name := by rw [hk.standing k h.lt hne]; exact h.pending name

/-- Whether jumps inside a scope have a target. -/
def Exits (a : Arena) (k : ScopeId) (loop : Bool) : Prop :=
  (a.exit? breakTarget k).isSome = loop ∧ (a.exit? continueTarget k).isSome = loop

theorem Exits.kept (h : a.Exits k loop) (hlt : k < a.scopes.size) (hk : a.Kept free b) :
    b.Exits k loop := by
  unfold Exits
  rw [hk.exit? hlt breakTarget fun _ _ hf => congrArg (·.2.2.1) hf,
    hk.exit? hlt continueTarget fun _ _ hf => congrArg (·.2.2.2) hf]
  exact h

/-- A scope is as an environment says, inside a loop or not. -/
structure ModelsIn (a : Arena) (k : ScopeId) (loop : Bool) (env : Env) : Prop extends a.Models k env where
  exits : a.Exits k loop

theorem stable_models : Stable none fun a => a.Models k env :=
  fun _ _ h hk => h.kept hk (by simp)

theorem stable_modelsIn : Stable none fun a => a.ModelsIn k loop env :=
  fun _ _ h hk => ⟨h.toModels.kept hk (by simp), h.exits.kept h.lt hk⟩

/-- Growth that may have changed what a scope has reached, and has not. -/
theorem Kept.closed (h : a.Kept (some k) b) (ha : a.Models k env) (hb : b.Models k env) :
    a.Kept none b := by
  refine { h with standing := fun l hl _ => ?_ }
  by_cases hlk : l = k
  · subst hlk
    funext name
    have hconst := congrFun (h.constant l hl) name
    have hpend := (ha.pending name).symm.trans (hb.pending name)
    unfold ownConstant? at hconst
    cases hx : (a.get l).standing? name with
    | none =>
      rw [hx] at hconst
      simpa using hconst
    | some st =>
      rw [hx] at hconst hpend
      obtain ⟨st', hst', heq⟩ := map_eq_some_iff.mp hconst
      rw [hst'] at hpend ⊢
      obtain ⟨f, c⟩ := st
      obtain ⟨f', c'⟩ := st'
      cases heq
      cases f <;> cases f' <;> simp_all
  · exact h.standing l hl fun he => hlk (some.inj he).symm

end Arena

/-! ## Lookups -/

namespace Naming

open Arena

variable {a : Arena} {k : ScopeId} {env : Env}

theorem constant?_captured {b : Arena} (h : a.Captured along b) (q : ScopeId) (name : String) :
    b.constant? q name = a.constant? q name :=
  constant?_congr (fun x _ => h.parent x) fun x _ => by
    obtain ⟨more, index, hx, _⟩ := h.get x
    rw [hx]
    rfl

/-- The scope where a name is found says what a lookup should answer. -/
theorem constant_of_finds (hs : a.Sound) (hh : a.Honest) {passed : List ScopeId} {found : ScopeId}
    (hf : a.Finds name k passed found) (hr : (a.get found).binding? name = some r) :
    a.constant? k name = some r.constant := by
  induction hf with
  | @here k =>
    rw [hs.constant?_eq, ownConstant?]
    rcases binding?_standing (hs.indexed k) hr with ⟨st, hst, hconst, _⟩ | ⟨hst, _, c, hc, rfl, hconst⟩
    · rw [hst, hconst]
      rfl
    · obtain ⟨p, hp, _⟩ := hs.visible k c hc
      rw [hst, hp, hconst]
      exact hh k p c hc hp
  | @outer k p found passed hb hp hf ih =>
    rw [hs.constant?_eq, ownConstant?,
      standing?_eq_none_of_binding? ((hs.indexed k).binding?_eq_none_iff.mpr hb), hp]
    exact ih hr

/-- The scopes that a lookup has passed answer what it has found. -/
theorem honest_recorded (hs : a.Sound) (hh : a.Honest) {passed : List ScopeId} {found : ScopeId}
    (hf : a.Finds name k passed found) (hr : (a.get found).binding? name = some r) :
    (a.recorded name r.constant passed).Honest := by
  have hcap := hf.captured hs.toRooted r.constant
  intro x p c hc hp
  rw [hcap.parent] at hp
  rw [constant?_captured hcap]
  rw [Arena.captures, hf.get_recorded hs.toRooted] at hc
  split at hc
  · next hx =>
    rcases mem_append.mp hc with hc | hc
    · exact hh x p c hc hp
    · rw [mem_singleton.mp hc]
      obtain ⟨q, rest, hq, hfq, _⟩ := hf.further hx
      cases hq.symm.trans hp
      exact constant_of_finds hs hh hfq hr
  · exact hh x p c hc hp

/-- A lookup answers what the environment says. It fails only on a pending name. -/
theorem lookup_models (h : a.Models k env) (name : String) (tolerant : Bool) :
    match lookup k name tolerant true a with
    | .error _ _ => tolerant = false ∧ name ∈ env.pending
    | .ok r b => a.Kept none b ∧ r.map (·.constant) = env.constant? name ∧
      (tolerant = false → name ∉ env.pending) := by
  have ha := h.sound.toRooted
  rw [lookup_eq, ← h.constants, h.pending]
  rcases ha.finds name k with ⟨passed, found, hf⟩ | hnone
  · obtain ⟨r, hr⟩ := hf.known ha
    have hconst := constant_of_finds h.sound h.honest hf hr
    have hpending : (∃ constant, (a.get k).standing? name = some ⟨true, constant⟩) ↔
        passed = [] ∧ r.binding.isForward := by
      cases hf with
      | here =>
        rcases binding?_standing (ha.indexed k) hr with ⟨⟨f, c⟩, hst, _, hf⟩ | ⟨hst, hf, _⟩ <;> simp [hst, hf]
      | outer hb => simp [standing?_eq_none_of_binding? ((ha.indexed k).binding?_eq_none_iff.mpr hb)]
    rw [lookupAlong_finds ha hf hr, hpending]
    by_cases hearly : Refuses tolerant true r passed.length
    · rw [if_pos hearly]
      obtain ⟨hforward, ⟨hlen, htolerant⟩ | ⟨_, ⟨⟩⟩⟩ := hearly
      exact ⟨htolerant, length_eq_zero_iff.mp hlen, hforward⟩
    · rw [if_neg hearly]
      refine ⟨.of_captured (hf.captured ha _) (hf.sound h.sound _)
        (honest_recorded h.sound h.honest hf hr), hconst ▸ ?_, ?_⟩
      · cases passed <;> rfl
      · rintro rfl ⟨rfl, hforward⟩
        exact hearly ⟨hforward, .inl ⟨rfl, rfl⟩⟩
  · have hown : ∀ x ∈ a.chain k, (a.get x).standing? name = none := fun x hx =>
      standing?_eq_none_of_binding? ((ha.indexed x).binding?_eq_none_iff.mpr (hnone x hx))
    rw [lookupAlong_none ha hnone, hown k (mem_chain_self a k)]
    refine ⟨.refl h.sound h.honest, .symm ?_, by simp⟩
    exact findSome?_eq_none_iff.mpr fun x hx => by rw [ownConstant?, hown x hx]; rfl

end Naming

end Scope

end ScriptIr
