import Mathlib.Logic.Equiv.Defs
import ScriptIr.Proofs.Scope.History

/-!
# Renamed arenas

Scopes only compare names, so every operation on an arena gives the same answers in an arena with
other names. A scope goes on knowing what it knows, and a lookup that finds nothing has met no scope
that knows the name.

* `Arena.Sees`: a name that is known along the chain of a scope.
* `renames_lookup`, `renames_declare`, ...: the operations.
-/
namespace ScriptIr

open List

open Code (BlockId InstId)

/-! ## Errors -/

variable (r : String → String)

/-- The inconsistency with another name. -/
def Fault.rename : Fault → Fault
  | .missingSlot name => .missingSlot (r name)
  | .invisibleCapture name => .invisibleCapture (r name)
  | .lostLoopVariable name => .lostLoopVariable (r name)
  | fault => fault

def Error.rename : Error → Error
  | .undefined name => .undefined (r name)
  | .redeclaration name => .redeclaration (r name)
  | .constAssignment name => .constAssignment (r name)
  | .internal fault => .internal (fault.rename r)
  | e => e

namespace Scope

/-! ## Tables -/

namespace Table

/-- The table with other names. -/
def rename (t : Table α) : Table α := map (fun e => (r e.1, e.2)) t

variable (r : Equiv.Perm String) (t : Table α)

@[simp] theorem find?_rename (name : String) : find? (rename r t) (r name) = find? t name := by
  induction t with
  | nil => rfl
  | cons e t ih =>
    show find? ((r e.1, e.2) :: rename r t) (r name) = _
    rw [find?_cons, find?_cons, ih]
    simp

@[simp] theorem has_rename (name : String) : has (rename r t) (r name) = has t name := by
  rw [has_eq_isSome, has_eq_isSome, find?_rename]

theorem put_rename (name : String) (value : α) :
    put (rename r t) (r name) value = rename r (put t name value) := by
  unfold put
  rw [has_rename]
  split
  · unfold rename
    rw [map_map, map_map]
    refine map_congr_left fun e _ => ?_
    by_cases h : e.1 = name <;> simp [h]
  · simp [rename]

@[simp] theorem length_rename : length (rename r t) = length t := by
  simp [rename]

end Table

/-! ## Scopes -/

def Capture.rename (c : Capture) : Capture := { c with name := r c.name }

end Scope

open Scope

/-- The scope with other names. -/
def Scope.rename (s : Scope) : Scope :=
  { s with
    params := s.params.rename r
    rest := s.rest.map fun e => (r e.1, e.2)
    locals := s.locals.rename r
    captures := s.captures.map (Capture.rename r)
    captureIndex := s.captureIndex.rename r }

namespace Scope

variable {change : Scope → Scope} {b : Arena}

section

variable (r : Equiv.Perm String) (s : Scope) (name : String)

theorem rest_filter_rename : (s.rename r).rest.filter (fun e => e.1 == r name)
      = (s.rest.filter fun e => e.1 == name).map fun e => (r e.1, e.2) := by
  unfold rename
  cases s.rest with
  | none => rfl
  | some e => by_cases h : e.1 = name <;> simp [Option.filter, h]

@[simp] theorem isRest_rename : (s.rename r).isRest (r name) = s.isRest name := by
  rw [isRest_eq, isRest_eq, rest_filter_rename]
  simp

@[simp] theorem owns_rename : (s.rename r).owns (r name) = s.owns name := by
  unfold owns
  rw [isRest_rename]
  simp [rename]

theorem capture?_rename : (s.rename r).capture? (r name) = s.capture? name := by
  unfold capture? rename
  simp only [Table.find?_rename, getElem?_map]
  cases s.captureIndex.find? name with
  | none => rfl
  | some index => cases h : s.captures[index]? <;> simp [h, Capture.rename]

/-- What a scope knows about a name does not depend on names. -/
@[simp] theorem binding?_rename : (s.rename r).binding? (r name) = s.binding? name := by
  unfold binding?
  rw [rest_filter_rename, capture?_rename]
  have hp : (s.rename r).params.find? (r name) = s.params.find? name := by simp [rename]
  have hl : (s.rename r).locals.find? (r name) = s.locals.find? name := by simp [rename]
  rw [hp, hl]
  cases s.params.find? name with
  | some i => rfl
  | none =>
    cases s.rest.filter fun e => e.1 == name with
    | some e => rfl
    | none =>
      cases s.locals.find? name with
      | some d => rfl
      | none => rfl

end

namespace Arena

/-- The arena with other names. -/
def rename (a : Arena) : Arena := ⟨a.scopes.map (Scope.rename r)⟩

section

variable (r : Equiv.Perm String) (a : Arena) (k : ScopeId)

@[simp] theorem get_rename : (a.rename r).get k = (a.get k).rename r := by
  rw [get_eq, get_eq]
  simp only [rename, Array.getElem?_map]
  cases a.scopes[k]? <;> rfl

@[simp] theorem parent_rename : ((a.rename r).get k).parent = (a.get k).parent := by
  rw [get_rename]
  rfl

@[simp] theorem chain_rename : (a.rename r).chain k = a.chain k :=
  chain_congr fun x _ => parent_rename r a x

theorem modify_rename {change' : Scope → Scope} (h : ∀ s, change' (s.rename r) = (change s).rename r) :
    (a.rename r).modify k change' = (a.modify k change).rename r := by
  unfold rename modify
  congr 1
  apply Array.ext_getElem?
  intro i
  simp only [Array.getElem?_modify, Array.getElem?_map]
  split <;> cases a.scopes[i]? <;> simp [h]

theorem captures_rename : (a.rename r).captures k = (a.captures k).map (Capture.rename r) := by
  unfold captures
  rw [get_rename]
  rfl

theorem capturedNames_rename :
    ((a.rename r).captures k).map (·.name) = ((a.captures k).map (·.name)).map r := by
  rw [captures_rename, map_map, map_map]
  rfl

@[simp] theorem variableCount_rename : (a.rename r).variableCount k = a.variableCount k := by
  unfold variableCount
  rw [get_rename]
  exact Table.length_rename r _

@[simp] theorem hasLocal_rename (name : String) :
    (a.rename r).hasLocal k (r name) = a.hasLocal k name := by
  unfold hasLocal
  rw [get_rename]
  exact Table.has_rename r _ name

@[simp] theorem scopesToFunction_rename : (a.rename r).scopesToFunction k = a.scopesToFunction k := by
  unfold scopesToFunction
  rw [chain_rename]
  congr 2
  funext x
  rw [get_rename]
  rfl

theorem targetAlong_rename {target : Scope → Option BlockId}
    (h : ∀ s : Scope, target (s.rename r) = target s) (along : List ScopeId) (n : Nat) :
    (a.rename r).targetAlong target along n = a.targetAlong target along n := by
  induction along generalizing n with
  | nil => rfl
  | cons k along ih =>
    unfold targetAlong
    rw [get_rename, h, ih]
    rfl

@[simp] theorem findBreak_rename : (a.rename r).findBreak k = a.findBreak k := by
  unfold findBreak
  rw [chain_rename]
  exact targetAlong_rename r a (fun _ => rfl) _ _

@[simp] theorem findContinue_rename : (a.rename r).findContinue k = a.findContinue k := by
  unfold findContinue
  rw [chain_rename]
  exact targetAlong_rename r a (fun _ => rfl) _ _

theorem addCapture_rename (name : String) (constant : Bool) :
    (a.rename r).addCapture k (r name) constant = (a.addCapture k name constant).rename r := by
  unfold addCapture
  apply modify_rename
  intro s
  simp [Scope.rename, withCapture, Capture.rename, Table.put_rename]

end

/-! ## What is seen -/

def Sees (a : Arena) (k : ScopeId) (name : String) : Prop :=
  ∃ x ∈ a.chain k, ((a.get x).binding? name).isSome

/-- An arena in which scopes of the first have the same parents and know no less. -/
structure Retains (a b : Arena) : Prop where
  size : a.scopes.size ≤ b.scopes.size
  parent : ∀ k, k < a.scopes.size → (b.get k).parent = (a.get k).parent
  known : ∀ k name, ((a.get k).binding? name).isSome → ((b.get k).binding? name).isSome

theorem Retains.refl (a : Arena) : Retains a a :=
  ⟨Nat.le_refl _, fun _ _ => rfl, fun _ _ h => h⟩

theorem Retains.trans {a c : Arena} (h : Retains a b) (h' : Retains b c) : Retains a c where
  size := Nat.le_trans h.size h'.size
  parent k hk := (h'.parent k (Nat.lt_of_lt_of_le hk h.size)).trans (h.parent k hk)
  known k name hn := h'.known k name (h.known k name hn)

variable {a : Arena} {k : ScopeId} {name : String}

theorem lt_size_of_binding? (h : ((a.get k).binding? name).isSome) : k < a.scopes.size := by
  rcases Nat.lt_or_ge k a.scopes.size with hk | hk
  · exact hk
  · rw [get_of_size_le hk] at h
    cases h

theorem Sees.lt_size (h : a.Sees k name) : k < a.scopes.size := by
  rcases Nat.lt_or_ge k a.scopes.size with hk | hk
  · exact hk
  · obtain ⟨x, hx, hknown⟩ := h
    rw [chain_root (by rw [get_of_size_le hk])] at hx
    rw [mem_singleton.mp hx] at hknown
    exact absurd (lt_size_of_binding? hknown) (Nat.not_lt.mpr hk)

theorem Sees.retained (h : a.Sees k name) (hr : Retains a b) :
    b.Sees k name := by
  have hchain : b.chain k = a.chain k :=
    chain_congr fun x hx => hr.parent x (Nat.lt_of_le_of_lt hx h.lt_size)
  obtain ⟨x, hx, hknown⟩ := h
  exact ⟨x, by rw [hchain]; exact hx, hr.known x name hknown⟩

theorem sees_own (h : ((a.get k).binding? name).isSome) :
    a.Sees k name := ⟨k, mem_chain_self a k, h⟩

theorem retains_push (a : Arena) (parent : Option ScopeId) (kind : Kind) :
    Retains a (a.push parent kind).2 where
  size := by simp
  parent k hk := by rw [get_push, if_neg (Nat.ne_of_lt hk)]
  known k name hn := by
    have hk := lt_size_of_binding? hn
    rw [get_push, if_neg (Nat.ne_of_lt hk)]
    exact hn

theorem sees_push {p : ScopeId} (h : a.Sees p name) (kind : Kind) :
    (a.push (some p) kind).2.Sees a.scopes.size name := by
  have hparent : ((a.push (some p) kind).2.get a.scopes.size).parent = some p := by
    rw [get_push, if_pos rfl]
  obtain ⟨x, hx, hknown⟩ := h.retained (retains_push a (some p) kind)
  refine ⟨x, ?_, hknown⟩
  rw [chain_inner hparent h.lt_size]
  exact mem_cons_of_mem _ hx

theorem retains_modify (a : Arena) (k : ScopeId) (change : Scope → Scope)
    (hparent : ∀ s : Scope, (change s).parent = s.parent)
    (hknown : ∀ name, ((a.get k).binding? name).isSome →
      ((change (a.get k)).binding? name).isSome) : Retains a (a.modify k change) where
  size := by simp
  parent x _ := by
    rw [get_modify]
    split
    next hx => rw [hparent, hx.1]
    next => rfl
  known x name hn := by
    rw [get_modify]
    split
    next hx =>
      rw [hx.1] at hn
      exact hknown name hn
    next => exact hn

end Arena

/-! ## Operations -/

namespace Naming

open Arena

variable {s : Scope} {u : Unit} {slot res : InstId} {constant : Bool} {a : Arena} {k : ScopeId} {name : String}

def renamed : EStateM.Result Error Arena α → EStateM.Result Error Arena α
  | .ok a b => .ok a (b.rename r)
  | .error e b => .error (e.rename r) (b.rename r)

def arenaOf : EStateM.Result Error Arena α → Arena
  | .ok _ b => b
  | .error _ b => b

/-- At the arena `a`, the second computation is the image of the first, which takes nothing away. -/
structure Renames (r : String → String) (a : Arena) (x x' : Naming α) : Prop where
  image : x' (a.rename r) = renamed r (x a)
  retains : Retains a (arenaOf (x a))

variable (r : Equiv.Perm String)

theorem isSome_capture?_withCapture (name : String) (constant : Bool) {other : String}
    (h : (s.capture? other).isSome) : ((s.withCapture name constant).capture? other).isSome := by
  obtain ⟨res, hres⟩ := Option.isSome_iff_exists.mp h
  obtain ⟨i, c, hi, hc, -⟩ := capture?_eq_some_iff.mp hres
  simp only [capture?, withCapture, Table.find?_put]
  split
  · simp
  · rw [hi]
    simp [List.getElem?_append_left (List.getElem?_eq_some_iff.mp hc).1, hc]

theorem renames_lookupAlong (a : Arena) (name : String) (along : List ScopeId) (tolerant upper : Bool) :
    Renames r a (lookupAlong name along tolerant upper) (lookupAlong (r name) along tolerant upper) := by
  induction along generalizing tolerant upper with
  | nil => exact ⟨rfl, .refl a⟩
  | cons k outer ih =>
    have ih := ih upper true
    constructor
    · rw [lookupAlong_cons, lookupAlong_cons, get_rename, binding?_rename, ih.image]
      cases hb : (a.get k).binding? name with
      | some res =>
        obtain ⟨binding, constant⟩ := res
        cases binding with
        | forward slot => cases tolerant <;> rfl
        | parameter i | rest v | slot v | capture i => rfl
      | none =>
        cases lookupAlong name outer upper true a with
        | error e b => rfl
        | ok res b =>
          cases res with
          | none => rfl
          | some res =>
            simp only [renamed]
            rw [addCapture_rename, captures_rename, length_map]
    · have hret := ih.retains
      rw [lookupAlong_cons]
      cases hb : (a.get k).binding? name with
      | some res =>
        obtain ⟨binding, constant⟩ := res
        cases binding with
        | forward slot => cases tolerant <;> exact .refl a
        | parameter i | rest v | slot v | capture i => exact .refl a
      | none =>
        cases hrun : lookupAlong name outer upper true a with
        | error e b => rw [hrun] at hret; exact hret
        | ok res b =>
          rw [hrun] at hret
          cases res with
          | none => exact hret
          | some res =>
            refine hret.trans (retains_modify b k _ (fun _ => rfl) fun other hother => ?_)
            rw [binding?_isSome, Bool.or_eq_true] at hother ⊢
            exact hother.imp id (isSome_capture?_withCapture name res.constant)

theorem renames_lookup (a : Arena) (k : ScopeId) (name : String) (tolerant upper : Bool) :
    Renames r a (lookup k name tolerant upper) (lookup k (r name) tolerant upper) := by
  have h := renames_lookupAlong r a name (a.chain k) tolerant upper
  refine ⟨?_, h.retains⟩
  rw [lookup_eq, lookup_eq, chain_rename]
  exact h.image

/-- A lookup that finds nothing has met no scope that knows the name. -/
theorem not_sees_of_lookup {tolerant upper : Bool} (h : lookup k name tolerant upper a = .ok none b)
    : ¬ a.Sees k name := by
  rw [lookup_eq] at h
  have hall : ∀ (along : List ScopeId) (tolerant upper : Bool) (b : Arena),
      lookupAlong name along tolerant upper a = .ok none b →
      ∀ x ∈ along, (a.get x).binding? name = none := by
    intro along
    induction along with
    | nil => exact fun _ _ _ _ x hx => absurd hx not_mem_nil
    | cons k outer ih =>
      intro tolerant upper b hrun x hx
      rw [lookupAlong_cons] at hrun
      cases hb : (a.get k).binding? name with
      | some res =>
        rw [hb] at hrun
        obtain ⟨binding, constant⟩ := res
        cases binding with
        | forward slot => cases tolerant <;> simp at hrun
        | parameter i | rest v | slot v | capture i => simp at hrun
      | none =>
        rcases mem_cons.mp hx with rfl | hx
        · exact hb
        · rw [hb] at hrun
          cases hout : lookupAlong name outer upper true a with
          | error e c => rw [hout] at hrun; cases hrun
          | ok res c =>
            rw [hout] at hrun
            cases res with
            | none => exact ih upper true c hout x hx
            | some res => cases hrun
  rintro ⟨x, hx, hknown⟩
  rw [hall _ _ _ _ h x hx] at hknown
  cases hknown

/-! ### Names that enter a scope -/

theorem isSome_binding?_of_own? (h : (s.own? name).isSome) : (s.binding? name).isSome := by
  rw [binding?_isSome, h]
  rfl

theorem known_of_own? {t : Scope} (hcaptures : t.SameCaptures s)
    (hown : ∀ name, (s.own? name).isSome → (t.own? name).isSome) (name : String)
    (h : (s.binding? name).isSome) : (t.binding? name).isSome := by
  rw [binding?_isSome, Bool.or_eq_true] at h ⊢
  exact h.imp (hown name) (hcaptures.capture? ▸ ·)

theorem retains_put_params (a : Arena) (k : ScopeId) (name : String) (index : Nat) :
    Retains a (a.modify k fun s => { s with params := s.params.put name index }) := by
  refine retains_modify a k _ (fun _ => rfl) (known_of_own? ⟨rfl, rfl⟩ fun other hother => ?_)
  rw [own?_put_params_isSome, hother, Bool.or_true]

theorem retains_put_locals (a : Arena) (k : ScopeId) (name : String) (d : Declaration) :
    Retains a (a.modify k fun s => { s with locals := s.locals.put name d }) := by
  refine retains_modify a k _ (fun _ => rfl) (known_of_own? ⟨rfl, rfl⟩ fun other hother => ?_)
  rw [own?_put_locals_isSome, hother, Bool.or_true]

theorem sees_modify (hk : k < a.scopes.size) (h : ((change (a.get k)).own? name).isSome)
    : (a.modify k change).Sees k name := by
  refine sees_own ?_
  rw [get_modify_same hk]
  exact isSome_binding?_of_own? h

theorem retains_setParamsFrom (k : ScopeId) (names : List String) (a : Arena) (index : Nat) :
    Retains a (arenaOf (setParamsFrom k index names a)) := by
  induction names generalizing a index with
  | nil => exact .refl a
  | cons name names ih =>
    rw [setParamsFrom_cons]
    split
    · exact retains_put_params a k name index
    · exact (retains_put_params a k name index).trans (ih _ _)

theorem renames_setParamsFrom (k : ScopeId) (names : List String) (a : Arena) (index : Nat) :
    Renames r a (setParamsFrom k index names) (setParamsFrom k index (names.map r)) := by
  refine ⟨?_, retains_setParamsFrom k names a index⟩
  induction names generalizing a index with
  | nil => rfl
  | cons name names ih =>
    have hput : (a.rename r).modify k (fun s => { s with params := s.params.put (r name) index })
        = (a.modify k fun s => { s with params := s.params.put name index }).rename r := by
      apply modify_rename
      intro s
      simp only [Scope.rename, Table.put_rename]
    have hhas : ((a.rename r).get k).params.has (r name) = (a.get k).params.has name := by
      rw [get_rename]
      exact Table.has_rename r _ name
    rw [map_cons, setParamsFrom_cons, setParamsFrom_cons, hput, hhas, ih]
    split <;> rfl

/-- Parameters that are registered are seen, and no rest parameter is. -/
theorem setParamsFrom_post (names : List String) {index : Nat} (hk : k < a.scopes.size)
    (h : setParamsFrom k index names a = .ok u b) :
    (∀ name ∈ names, b.Sees k name) ∧ (b.get k).rest = (a.get k).rest := by
  induction names generalizing a index with
  | nil =>
    cases h
    exact ⟨fun _ hn => (not_mem_nil hn).elim, rfl⟩
  | cons name names ih =>
    have hret := retains_setParamsFrom k names
      (a.modify k fun s => { s with params := s.params.put name index }) (index + 1)
    rw [setParamsFrom_cons] at h
    split at h
    · cases h
    · obtain ⟨hseen, hrest⟩ := ih (by rw [size_modify]; exact hk) h
      rw [h] at hret
      rw [get_modify_same hk] at hrest
      refine ⟨fun other hother => ?_, hrest⟩
      rcases mem_cons.1 hother with rfl | hother
      · refine Sees.retained (sees_modify hk ?_) hret
        rw [own?_put_params_isSome]
        simp
      · exact hseen other hother

theorem renames_setParams (k : ScopeId) (names : List String) (a : Arena) :
    Renames r a (setParams k names) (setParams k (names.map r)) :=
  renames_setParamsFrom r k names a 0

/-- A rest parameter is registered where there is none yet. -/
theorem renames_setRest (h : (a.get k).rest = none) (name : String) (slot : InstId)
    : Renames r a (setRest k name slot) (setRest k (r name) slot) := by
  have hput : ((a.rename r).modify k fun s => { s with rest := some (r name, slot) })
      = (a.modify k fun s => { s with rest := some (name, slot) }).rename r :=
    modify_rename r a k fun _ => rfl
  constructor
  · rw [setRest_eq, setRest_eq, get_rename, owns_rename]
    split
    · rfl
    · rw [hput]
      rfl
  · rw [setRest_eq]
    split
    · exact .refl a
    next hown =>
      refine retains_modify a k _ (fun _ => rfl) (known_of_own? ⟨rfl, rfl⟩ fun other hother => ?_)
      rw [own?_set_rest h]
      · split
        · rfl
        · exact hother
      · exact own?_eq_none_iff.mpr (Bool.not_eq_true _ ▸ hown)

theorem sees_of_setRest (hk : k < a.scopes.size) (hrest : (a.get k).rest = none)
    (h : setRest k name slot a = .ok u b) : b.Sees k name := by
  rw [setRest_eq] at h
  split at h
  · cases h
  next hown =>
    cases h
    refine sees_modify hk ?_
    rw [own?_set_rest hrest, if_pos rfl]
    · rfl
    · exact own?_eq_none_iff.mpr (Bool.not_eq_true _ ▸ hown)

theorem put_locals_rename (a : Arena) (k : ScopeId) (name : String) (d : Declaration) :
    ((a.rename r).modify k fun s => { s with locals := s.locals.put (r name) d })
      = (a.modify k fun s => { s with locals := s.locals.put name d }).rename r := by
  apply modify_rename
  intro s
  simp only [Scope.rename, Table.put_rename]

theorem renames_forwardDeclare (a : Arena) (k : ScopeId) (name : String) (slot : InstId)
    (constant : Bool) :
    Renames r a (forwardDeclare k name slot constant) (forwardDeclare k (r name) slot constant) := by
  constructor
  · rw [forwardDeclare_eq, forwardDeclare_eq, get_rename, owns_rename, put_locals_rename]
    split <;> rfl
  · rw [forwardDeclare_eq]
    split
    · exact .refl a
    · exact retains_put_locals a k name _

theorem sees_of_forwardDeclare (hk : k < a.scopes.size)
    (h : forwardDeclare k name slot constant a = .ok u b) : b.Sees k name := by
  rw [forwardDeclare_eq] at h
  split at h
  · cases h
  · cases h
    refine sees_modify hk ?_
    rw [own?_put_locals_isSome]
    simp

theorem renames_declare (a : Arena) (k : ScopeId) (name : String) (slot : Option InstId)
    (constant : Bool) :
    Renames r a (declare k name slot constant) (declare k (r name) slot constant) := by
  have hp : ((a.rename r).get k).params.has (r name) = (a.get k).params.has name := by
    rw [get_rename]
    exact Table.has_rename r _ name
  have hr : ((a.rename r).get k).isRest (r name) = (a.get k).isRest name := by
    rw [get_rename, isRest_rename]
  have hl : ((a.rename r).get k).locals.find? (r name) = (a.get k).locals.find? name := by
    rw [get_rename]
    exact Table.find?_rename r _ name
  constructor
  · rw [declare_eq, declare_eq, hp, hr, hl]
    simp only [put_locals_rename]
    split
    · rfl
    · cases (a.get k).locals.find? name with
      | some d => cases hf : d.forward <;> simp [hf] <;> rfl
      | none => cases slot <;> rfl
  · rw [declare_eq]
    split
    · exact .refl a
    · cases (a.get k).locals.find? name with
      | some d =>
        cases hf : d.forward
        · simpa [hf] using .refl a
        · simpa [hf, arenaOf] using retains_put_locals a k name _
      | none =>
        cases slot with
        | some slot => exact retains_put_locals a k name _
        | none => exact .refl a

theorem declare_ok {slot : Option InstId} (h : declare k name slot constant a = .ok res b) :
    ∃ d, b = a.modify k fun s => { s with locals := s.locals.put name d } := by
  rw [declare_eq] at h
  split at h
  · cases h
  · split at h
    · split at h <;> cases h
      exact ⟨_, rfl⟩
    · cases h
      exact ⟨_, rfl⟩
    · cases h

theorem declare_post {slot : Option InstId} (hk : k < a.scopes.size)
    (h : declare k name slot constant a = .ok res b) :
    b.Sees k name ∧ (b.get k).rest = (a.get k).rest := by
  obtain ⟨d, rfl⟩ := declare_ok h
  constructor
  · refine sees_modify hk ?_
    rw [own?_put_locals_isSome]
    simp
  · rw [get_modify_same hk]

end Naming

end Scope

end ScriptIr
