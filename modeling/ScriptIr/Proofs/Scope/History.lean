import ScriptIr.Proofs.Scope.Naming

/-!
# Histories of an arena

An arena is built by operations in any order, some of which fail; what a failed one has done stays
done. Frames and closures take their operands from the captures of a scope, so these must stay
numbered and known to the parent through every history.

* `Arena.Keeps`: what an operation preserves.
* `Sound.apply_keeps`, `Sound.run_keeps`: one operation, and operations in a row.
-/
namespace ScriptIr.Scope

open Code (BlockId InstId)

variable {a : Arena} {k : ScopeId} {s : Scope}

/-! ## Operations -/

/-- An operation on an arena. -/
inductive Action where
  | openFunction (parent : Option ScopeId)
  | openBlock (parent : ScopeId)
  | setParams (s : ScopeId) (names : List String)
  | setRest (s : ScopeId) (name : String) (slot : InstId)
  | setBreakTarget (s : ScopeId) (target : BlockId)
  | setContinueTarget (s : ScopeId) (target : BlockId)
  | lookup (s : ScopeId) (name : String) (tolerant upperTolerant : Bool)
  | forwardDeclare (s : ScopeId) (name : String) (slot : InstId) (constant : Bool)
  | declare (s : ScopeId) (name : String) (slot : Option InstId) (constant : Bool)

/-- The arena that a computation leaves behind, whether or not it fails. -/
def Naming.after (act : Naming α) (a : Arena) : Arena :=
  match act a with
  | .ok _ b => b
  | .error _ b => b

namespace Action

/-- What an operation leaves behind. -/
def apply (a : Arena) : Action → Arena
  | openFunction parent => (a.push parent .function).2
  | openBlock parent => (a.push (some parent) .block).2
  | setParams s names => (Naming.setParams s names).after a
  | setRest s name slot => (Naming.setRest s name slot).after a
  | setBreakTarget s target => a.setBreakTarget s target
  | setContinueTarget s target => a.setContinueTarget s target
  | lookup s name tolerant upperTolerant => (Naming.lookup s name tolerant upperTolerant).after a
  | forwardDeclare s name slot constant => (Naming.forwardDeclare s name slot constant).after a
  | declare s name slot constant => (Naming.declare s name slot constant).after a

/-- Scopes that an operation names have been created, and a scope that has a rest parameter gets no
other one: a second attempt is made only where it fails. -/
def Allowed (a : Arena) : Action → Prop
  | openFunction parent => ∀ p, parent = some p → p < a.scopes.size
  | openBlock parent => parent < a.scopes.size
  | setRest s name _ => s < a.scopes.size ∧ ((a.get s).rest = none ∨ (a.get s).owns name)
  | setParams s _ | setBreakTarget s _ | setContinueTarget s _ | lookup s _ _ _
  | forwardDeclare s _ _ _ | declare s _ _ _ => s < a.scopes.size

instance (a : Arena) (action : Action) : Decidable (action.Allowed a) :=
  match action with
  | openFunction none => .isTrue nofun
  | openFunction (some p) => decidable_of_iff (p < a.scopes.size) (by simp [Allowed])
  | openBlock parent => inferInstanceAs (Decidable (parent < a.scopes.size))
  | setRest s name _ =>
    inferInstanceAs (Decidable (s < a.scopes.size ∧ ((a.get s).rest = none ∨ (a.get s).owns name)))
  | setParams s _ | setBreakTarget s _ | setContinueTarget s _ | lookup s _ _ _
  | forwardDeclare s _ _ _ | declare s _ _ _ => inferInstanceAs (Decidable (s < a.scopes.size))

/-- Operations in a row. -/
def run (a : Arena) : List Action → Arena
  | [] => a
  | action :: actions => run (action.apply a) actions

/-- Each operation is allowed where its turn comes. -/
def Admissible (a : Arena) : List Action → Prop
  | [] => True
  | action :: actions => action.Allowed a ∧ Admissible (action.apply a) actions

instance (a : Arena) (actions : List Action) : Decidable (Admissible a actions) :=
  match actions with
  | [] => .isTrue trivial
  | action :: actions =>
    have : Decidable (Admissible (action.apply a) actions) :=
      instDecidableAdmissible (action.apply a) actions
    inferInstanceAs (Decidable (action.Allowed a ∧ Admissible (action.apply a) actions))

end Action

namespace Arena

/-! ## What is kept -/

/-- The step from `a` to `b` leads to a sound arena, and captures are only appended. -/
structure Keeps (a b : Arena) : Prop where
  sound : b.Sound
  size : a.scopes.size ≤ b.scopes.size
  appends : ∀ s : ScopeId, a.captures s <+: b.captures s

theorem Sound.keeps (h : a.Sound) : Keeps a a :=
  ⟨h, le_rfl, fun _ => List.prefix_refl _⟩

theorem Keeps.trans {b c : Arena} (h : Keeps a b) (h' : Keeps b c) : Keeps a c :=
  ⟨h'.sound, Nat.le_trans h.size h'.size, fun s => (h.appends s).trans (h'.appends s)⟩

theorem Sound.keeps_modify (h : a.Sound) (hk : k < a.scopes.size) (change : Scope → Scope)
    (hparent : (change (a.get k)).parent = (a.get k).parent)
    (hcaptures : (change (a.get k)).SameCaptures (a.get k))
    (hknown : ∀ name, ((a.get k).own? name).isSome → ((change (a.get k)).own? name).isSome) :
    Keeps a (a.modify k change) := by
  have hr := replaced_modify hk change
  have hcap : ∀ s, (a.modify k change).captures s = a.captures s := by
    intro s
    unfold captures
    by_cases hs : s = k
    · rw [hs, hr.here, hcaptures.1]
    · rw [hr.other s hs]
  exact ⟨h.replaced hr hparent hcaptures hknown, Nat.le_of_eq hr.size.symm,
    fun s => hcap s ▸ List.prefix_rfl⟩

end Arena

/-! ## Names that enter a scope -/

theorem own?_put_params_isSome (param : String) (index : Nat) (name : String) :
    (own? { s with params := s.params.put param index } name).isSome
      = (decide (name = param) || (s.own? name).isSome) := by
  simp only [← owns_eq_isSome, owns, Table.has_put, Bool.or_assoc, isRest]

theorem own?_put_locals_isSome (declared : String) (d : Declaration) (name : String) :
    (own? { s with locals := s.locals.put declared d } name).isSome
      = (decide (name = declared) || (s.own? name).isSome) := by
  simp only [← owns_eq_isSome, owns, Table.has_put, Bool.or_left_comm, isRest]

namespace Naming

open Arena

theorem setParamsFrom_keeps (k : ScopeId) (names : List String) (h : a.Sound) (hk : k < a.scopes.size)
    (index : Nat) : Keeps a ((setParamsFrom k index names).after a) := by
  induction names generalizing a index with
  | nil => exact h.keeps
  | cons name names ih =>
    have hput := h.keeps_modify hk (fun s => { s with params := s.params.put name index }) rfl
      ⟨rfl, rfl⟩ fun other hother => by rw [own?_put_params_isSome, hother, Bool.or_true]
    unfold after
    rw [setParamsFrom_cons]
    split
    next e b hrun =>
      split at hrun
      · cases hrun
      · have := ih hput.sound (by rw [size_modify]; exact hk) (index + 1)
        unfold after at this
        rw [hrun] at this
        exact hput.trans this
    next e b hrun =>
      split at hrun
      · cases hrun
        exact hput
      · have := ih hput.sound (by rw [size_modify]; exact hk) (index + 1)
        unfold after at this
        rw [hrun] at this
        exact hput.trans this

section

variable (h : a.Sound) (hk : k < a.scopes.size) (name : String)
include h hk

theorem setRest_keeps (slot : InstId)
    (hrest : (a.get k).rest = none ∨ (a.get k).owns name) :
    Keeps a ((setRest k name slot).after a) := by
  unfold after
  rw [setRest_eq]
  cases howns : (a.get k).owns name with
  | true => exact h.keeps
  | false =>
    have hnone : (a.get k).rest = none := hrest.resolve_right (by simp [howns])
    refine h.keeps_modify hk _ rfl ⟨rfl, rfl⟩ fun other hother => ?_
    rw [own?_set_rest hnone (own?_eq_none_iff.mpr howns)]
    split
    · rfl
    · exact hother

theorem put_locals_keeps (d : Declaration) :
    Keeps a (a.modify k fun s => { s with locals := s.locals.put name d }) :=
  h.keeps_modify hk _ rfl ⟨rfl, rfl⟩ fun other hother => by
    rw [own?_put_locals_isSome, hother, Bool.or_true]

theorem forwardDeclare_keeps (slot : InstId)
    (constant : Bool) : Keeps a ((forwardDeclare k name slot constant).after a) := by
  unfold after
  rw [forwardDeclare_eq]
  cases (a.get k).owns name with
  | true => exact h.keeps
  | false => exact put_locals_keeps h hk name _

theorem declare_keeps (slot : Option InstId)
    (constant : Bool) : Keeps a ((declare k name slot constant).after a) := by
  unfold after
  rw [declare_eq]
  cases (a.get k).params.has name || (a.get k).isRest name with
  | true => exact h.keeps
  | false =>
    cases (a.get k).locals.find? name with
    | some d =>
      cases hf : d.forward with
      | true => simpa [hf] using put_locals_keeps h hk name _
      | false => simpa [hf] using h.keeps
    | none =>
      cases slot with
      | some slot => exact put_locals_keeps h hk name _
      | none => exact h.keeps

end

/-! ## Lookups -/

theorem lookup_keeps (h : a.Sound) (k : ScopeId) (name : String) (tolerant upper : Bool) :
    Keeps a ((lookup k name tolerant upper).after a) := by
  have ha := h.toRooted
  unfold after
  rw [lookup_eq]
  rcases ha.finds name k with ⟨passed, found, hf⟩ | hnone
  · obtain ⟨r, hr⟩ := hf.known ha
    rw [lookupAlong_finds ha hf hr]
    by_cases hearly : Refuses tolerant upper r passed.length
    · simpa only [if_pos hearly] using h.keeps
    simp only [if_neg hearly]
    refine ⟨hf.sound h _, Nat.le_of_eq (size_recorded a ..).symm, fun s => ?_⟩
    unfold Arena.captures
    rw [hf.get_recorded ha]
    split
    · exact List.prefix_append _ _
    · exact List.prefix_rfl
  · rw [lookupAlong_none ha hnone]
    exact h.keeps

end Naming

/-! ## Histories -/

namespace Arena

theorem Sound.keeps_push (h : a.Sound) {parent : Option ScopeId} (kind : Kind)
    (hparent : ∀ outer, parent = some outer → outer < a.scopes.size) :
    Keeps a (a.push parent kind).2 := by
  have hcap : ∀ s, (a.push parent kind).2.captures s = a.captures s := by
    intro s
    unfold captures
    rw [get_push]
    split
    next hs => rw [hs, get_of_size_le le_rfl]
    next => rfl
  exact ⟨sound_push h kind hparent, by simp, fun s => hcap s ▸ List.prefix_rfl⟩

theorem Sound.apply_keeps (h : a.Sound) {action : Action} (hallowed : action.Allowed a) :
    Keeps a (action.apply a) := by
  cases action with
  | openFunction parent => exact h.keeps_push .function hallowed
  | openBlock parent =>
    refine h.keeps_push .block fun outer houter => ?_
    cases houter
    exact hallowed
  | setParams s names => exact Naming.setParamsFrom_keeps s names h hallowed 0
  | setRest s name slot => exact Naming.setRest_keeps h hallowed.1 name slot hallowed.2
  | setBreakTarget s target => exact h.keeps_modify hallowed _ rfl ⟨rfl, rfl⟩ fun _ hn => hn
  | setContinueTarget s target => exact h.keeps_modify hallowed _ rfl ⟨rfl, rfl⟩ fun _ hn => hn
  | lookup s name tolerant upper => exact Naming.lookup_keeps h s name tolerant upper
  | forwardDeclare s name slot constant =>
    exact Naming.forwardDeclare_keeps h hallowed name slot constant
  | declare s name slot constant => exact Naming.declare_keeps h hallowed name slot constant

/-- What operations in a row preserve. -/
theorem Sound.run_keeps (h : a.Sound) {actions : List Action} (hadmissible : Action.Admissible a actions) :
    Keeps a (Action.run a actions) := by
  induction actions generalizing a with
  | nil => exact h.keeps
  | cons action actions ih =>
    have hstep := h.apply_keeps hadmissible.1
    exact hstep.trans (ih hstep.sound hadmissible.2)

/-- What holds of the captures of scope `s`: the `i`-th is numbered `i`, names are distinct, the table of
captured names holds exactly these names with their numbers, and the parent declares or captures each of
them and so resolves it. -/
structure CapturesResolve (a : Arena) (s : ScopeId) : Prop where
  numbered : ∀ (i : Nat) (c : Capture), (a.captures s)[i]? = some c → c.index = i
  distinct : ((a.captures s).map (·.name)).Nodup
  found : ∀ (name : String) (i : Nat), (a.get s).captureIndex.find? name = some i
    ↔ ((a.captures s)[i]?).map (·.name) = some name
  outer : a.captures s ≠ [] → ∃ p, (a.get s).parent = some p ∧ ∀ c ∈ a.captures s,
    ((a.get p).owns c.name ∨ ∃ d ∈ a.captures p, d.name = c.name)
    ∧ ∃ (r : Resolved) (b : Arena), Naming.lookup p c.name true true a = .ok (some r) b

theorem Sound.capturesResolve (h : a.Sound) (s : ScopeId) : a.CapturesResolve s where
  numbered := (h.indexed s).numbered
  distinct := (h.indexed s).distinct
  found := (h.indexed s).found
  outer hne := by
    obtain ⟨first, hfirst⟩ := List.exists_mem_of_ne_nil _ hne
    obtain ⟨p, hp, -⟩ := h.visible s first hfirst
    refine ⟨p, hp, fun c hc => ?_⟩
    obtain ⟨p', hp', hknown⟩ := h.visible s c hc
    obtain rfl : p = p' := Option.some.inj (hp.symm.trans hp')
    obtain ⟨r, hr⟩ := Option.isSome_iff_exists.mp hknown
    exact ⟨(h.indexed p).isSome_binding?_iff.mp hknown, r, a, Naming.lookup_known hr⟩

/-- **Captures stay numbered and known.** After any operations, failed ones included, the captures of
every scope are numbered in order, stand under their names and are resolved by the parent; whatever
operations follow only append to them. -/
theorem captures_stay_numbered (actions : List Action)
    (hadmissible : Action.Admissible empty actions) :
    (∀ s, (Action.run empty actions).CapturesResolve s)
    ∧ ∀ more, Action.Admissible (Action.run empty actions) more → ∀ s,
      (Action.run empty actions).captures s
        <+: (Action.run (Action.run empty actions) more).captures s := by
  have hsound := (sound_empty.run_keeps hadmissible).sound
  exact ⟨hsound.capturesResolve, fun more hmore => (hsound.run_keeps hmore).appends⟩

/-- A block in a function in a program. The block captures `y` and `x`, whereupon the function
declares a `y` of its own; a repeated parameter, a second rest parameter and an early use of `z`
fail. -/
def lateDeclaration : List Action :=
  [.openFunction none, .declare 0 "x" (some 0) false, .declare 0 "y" (some 1) true,
    .openFunction (some 0), .setParams 1 ["p", "p"], .setRest 1 "more" 2, .openBlock 1,
    .lookup 2 "y" false true, .lookup 2 "x" false true, .declare 1 "y" (some 3) false,
    .setRest 1 "p" 4, .forwardDeclare 2 "z" 5 false, .lookup 2 "z" false true]

theorem lateDeclaration_captures :
    Action.Admissible empty lateDeclaration
    ∧ ((Action.run empty lateDeclaration).captures 2).map (·.name) = ["y", "x"]
    ∧ (Action.run empty lateDeclaration).CapturesResolve 2 := by
  have hadmissible : Action.Admissible empty lateDeclaration := by decide +kernel
  exact ⟨hadmissible, by decide +kernel, (captures_stay_numbered _ hadmissible).1 2⟩

end Arena

end ScriptIr.Scope
