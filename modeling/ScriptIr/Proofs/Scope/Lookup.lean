import ScriptIr.Proofs.Scope.History

/-!
# What a lookup does

A lookup goes outwards to the first scope that knows the name. On the way back each scope that it has
passed takes the name down as a capture, so that a second lookup ends at once; a lookup that does not
succeed leaves nothing behind.

* `Arena.Reachable`: arenas that operations on existing scopes lead to.
-/
namespace ScriptIr.Scope

open Naming

open Code (InstId)

/-! ## Reachable arenas -/

/-- The scope that an operation is about. -/
def Action.scope? : Action → Option ScopeId
  | openFunction parent => parent
  | openBlock s | setParams s _ | setRest s _ _ | setBreakTarget s _ | setContinueTarget s _
  | lookup s _ _ _ | forwardDeclare s _ _ _ | declare s _ _ _ => some s

namespace Arena

/-- Arenas that actions on existing scopes lead to. -/
inductive Reachable : Arena → Prop where
  | empty : Reachable empty
  | step {a : Arena} (action : Action) : Reachable a →
      (∀ s, action.scope? = some s → s < a.scopes.size) → Reachable (action.apply a)

variable {a : Arena} {k : ScopeId} {name : String}

/-- Scopes may change in all but their parents and their captures. -/
theorem Rooted.modify (h : a.Rooted) {change : Scope → Scope} (hparent : ∀ s, (change s).parent = s.parent)
    (hcaptures : ∀ s, (change s).SameCaptures s) : (a.modify k change).Rooted where
  parent_lt x p hp := by
    rw [get_modify] at hp
    split at hp
    · next hx => exact h.parent_lt x p (by rw [hx.1, ← hparent]; exact hp)
    · exact h.parent_lt x p hp
  indexed x := by
    rw [get_modify]
    split
    · exact (hcaptures _).indexed (h.indexed _)
    · exact h.indexed x

theorem Rooted.setParamsFrom (h : a.Rooted) (names : List String) (index : Nat) :
    ((setParamsFrom k index names).after a).Rooted := by
  induction names generalizing a index with
  | nil => exact h
  | cons name names ih =>
    have hput : (a.modify k fun s => { s with params := s.params.put name index }).Rooted :=
      h.modify (fun _ => rfl) fun _ => ⟨rfl, rfl⟩
    unfold after
    rw [setParamsFrom_cons]
    cases (a.get k).params.has name with
    | true => exact hput
    | false => exact ih hput (index + 1)

theorem Rooted.lookup (h : a.Rooted) (tolerant upper : Bool) :
    ((lookup k name tolerant upper).after a).Rooted := by
  unfold after
  rw [lookup_eq]
  rcases h.finds name k with ⟨passed, found, hf⟩ | hnone
  · obtain ⟨r, hr⟩ := hf.known h
    rw [lookupAlong_finds h hf hr]
    by_cases hearly : Refuses tolerant upper r passed.length
    · simpa only [if_pos hearly] using h
    · simpa only [if_neg hearly] using hf.rooted h r.constant
  · rw [lookupAlong_none h hnone]
    exact h

theorem Rooted.apply (h : a.Rooted) {action : Action}
    (hs : ∀ s, action.scope? = some s → s < a.scopes.size) : (action.apply a).Rooted := by
  have hlocals : ∀ s name d, (a.modify s fun t => { t with locals := t.locals.put name d }).Rooted :=
    fun _ _ _ => h.modify (fun _ => rfl) fun _ => ⟨rfl, rfl⟩
  cases action with
  | openFunction parent => exact h.push _ hs
  | openBlock parent => exact h.push _ hs
  | setParams s names => exact h.setParamsFrom names 0
  | setRest s name slot =>
    simp only [Action.apply, after, setRest_eq]
    cases (a.get s).owns name with
    | true => exact h
    | false => exact h.modify (fun _ => rfl) fun _ => ⟨rfl, rfl⟩
  | setBreakTarget s target => exact h.modify (fun _ => rfl) fun _ => ⟨rfl, rfl⟩
  | setContinueTarget s target => exact h.modify (fun _ => rfl) fun _ => ⟨rfl, rfl⟩
  | lookup s name tolerant upper => exact h.lookup tolerant upper
  | forwardDeclare s name slot constant =>
    simp only [Action.apply, after, forwardDeclare_eq]
    cases (a.get s).owns name with
    | true => exact h
    | false => exact hlocals s name _
  | declare s name slot constant =>
    simp only [Action.apply, after, declare_eq]
    cases (a.get s).params.has name || (a.get s).isRest name with
    | true => exact h
    | false =>
      cases (a.get s).locals.find? name with
      | some d =>
        cases hf : d.forward with
        | true => simpa [hf] using hlocals s name _
        | false => simpa [hf] using h
      | none =>
        cases slot with
        | some slot => exact hlocals s name _
        | none => exact h

theorem Reachable.rooted (h : a.Reachable) : a.Rooted := by
  induction h with
  | empty => exact sound_empty.toRooted
  | step action _ hs ih => exact ih.apply hs

end Arena

/-! ## What a scope says -/

/-- What a scope says of a name that it knows: a parameter comes before the rest parameter, that before
a declared name, and that before the capture of the name. -/
inductive Says (s : Scope) (name : String) : Resolved → Prop where
  | parameter {index : Nat} : s.params.find? name = some index → Says s name ⟨.parameter index, false⟩
  | rest {slot : InstId} : s.params.has name = false → s.rest = some (name, slot) →
      Says s name ⟨.rest slot, false⟩
  | declared {d : Declaration} : s.params.has name = false → s.isRest name = false →
      s.locals.find? name = some d →
      Says s name ⟨if d.forward then .forward d.slot else .slot d.slot, d.constant⟩
  | captured {i : Nat} {c : Capture} : s.owns name = false → s.captures[i]? = some c → c.name = name →
      Says s name ⟨.capture i, c.constant⟩

theorem says_of_binding? {s : Scope} {name : String} {r : Resolved} (hs : s.Indexed)
    (h : s.binding? name = some r) : s.Says name r := by
  unfold binding? at h
  cases hp : s.params.find? name with
  | some index =>
    rw [hp] at h
    cases h
    exact .parameter hp
  | none =>
    have hparam : s.params.has name = false := by rw [Table.has_eq_isSome, hp]; rfl
    have hrest := isRest_eq s name
    simp only [hp] at h
    cases hr : s.rest.filter (fun r => r.1 == name) with
    | some e =>
      simp only [hr] at h
      cases h
      obtain ⟨hrest, hname⟩ := Option.filter_eq_some_iff.mp hr
      obtain rfl : e.1 = name := by simpa using hname
      exact .rest hparam (by assumption)
    | none =>
      simp only [hr] at h hrest
      cases hl : s.locals.find? name with
      | some d =>
        simp only [hl] at h
        cases h
        exact .declared hparam hrest hl
      | none =>
        simp only [hl] at h
        obtain ⟨i, c, hc, hname, rfl⟩ := hs.getElem?_capture h
        exact .captured (by rw [owns, hparam, hrest, Table.has_eq_isSome, hl]; rfl) hc hname

/-! ## The answer of a lookup -/

namespace Arena

variable {a : Arena}

/-- Scopes have each captured a name behind what they had captured, and nothing else has changed. -/
structure Records (a : Arena) (name : String) (constant : Bool) (passed : List ScopeId) (b : Arena) :
    Prop where
  size : b.scopes.size = a.scopes.size
  gained : ∀ x ∈ passed, b.get x = { a.get x with
    captures := a.captures x ++ [⟨name, (a.captures x).length, constant⟩]
    captureIndex := (a.get x).captureIndex.put name (a.captures x).length }
  others : ∀ x, x ∉ passed → b.get x = a.get x

/-- **What a lookup does.** If no scope around knows the name, the answer is that it is not declared. If
one does, a name whose declaration has yet to be reached may be refused, by the flag for the scope
itself or for the one around it; in both cases the arena stays as it is. Otherwise a name that is known
to the scope itself is answered at once, and for one that is found further out the scopes on the way
there capture it, after which a lookup with any flags gives the same answer and changes nothing. -/
theorem lookup_complete (ha : a.Reachable) (k : ScopeId) (name : String) (tolerant upper : Bool) :
    ((∀ passed found, ¬a.Finds name k passed found) →
      Naming.lookup k name tolerant upper a = .ok none a) ∧
    ∀ passed found, a.Finds name k passed found → ∃ r, (a.get found).Says name r ∧
      if Naming.Refuses tolerant upper r passed.length then
        Naming.lookup k name tolerant upper a = .error (.undefined name) a
      else if passed = [] then Naming.lookup k name tolerant upper a = .ok (some r) a
      else ∃ b, a.Records name r.constant passed b ∧
        Naming.lookup k name tolerant upper a =
          .ok (some ⟨.capture (a.captures k).length, r.constant⟩) b ∧
        ∀ tolerant' upper', Naming.lookup k name tolerant' upper' b =
          .ok (some ⟨.capture (a.captures k).length, r.constant⟩) b := by
  have hroot := ha.rooted
  refine ⟨fun hnone => ?_, fun passed found hf => ?_⟩
  · rcases hroot.finds name k with ⟨passed, found, hf⟩ | hunknown
    · exact absurd hf (hnone passed found)
    · exact Naming.lookupAlong_none hroot hunknown tolerant upper
  obtain ⟨r, hr⟩ := hf.known hroot
  refine ⟨r, says_of_binding? (hroot.indexed found) hr, ?_⟩
  have hlookup := Naming.lookupAlong_finds hroot hf hr tolerant upper
  rw [← Naming.lookup_eq] at hlookup
  split
  · next hearly => rw [hlookup, if_pos hearly]
  next hearly =>
  rw [if_neg hearly] at hlookup
  cases hf with
  | here => exact hlookup
  | @outer _ p _ passed hb hp hf =>
    have hget := (Finds.outer hb hp hf).get_recorded hroot r.constant
    refine ⟨_, ⟨size_recorded a .., fun x hx => by rw [hget, if_pos hx]; rfl,
      fun x hx => by rw [hget, if_neg hx]⟩, hlookup, fun tolerant' upper' => ?_⟩
    obtain ⟨outer, hchain⟩ := exists_chain_eq_cons (a.recorded name r.constant (k :: passed)) k
    rw [Naming.lookup_eq, hchain, Naming.lookupAlong_cons, hf.binding?_recorded hroot hb hp]

def nestedBlocks : Arena :=
  Action.run empty [.openFunction none, .declare 0 "x" (some 7) true, .openBlock 0, .openBlock 1]

theorem lookup_nestedBlocks : nestedBlocks.Reachable ∧ ∃ b,
    nestedBlocks.Records "x" true [2, 1] b ∧
    Naming.lookup 2 "x" false true nestedBlocks = .ok (some ⟨.capture 0, true⟩) b ∧
    ∀ tolerant upper, Naming.lookup 2 "x" tolerant upper b = .ok (some ⟨.capture 0, true⟩) b := by
  have hreach : nestedBlocks.Reachable :=
    .step (.openBlock 1) (.step (.openBlock 0) (.step (.declare 0 "x" (some 7) true)
      (.step (.openFunction none) .empty (by rintro _ ⟨⟩)) (by rintro _ ⟨⟩; decide))
      (by rintro _ ⟨⟩; decide)) (by rintro _ ⟨⟩; decide)
  have hfinds : nestedBlocks.Finds "x" 2 [2, 1] 0 :=
    .outer (by decide) rfl (.outer (by decide) rfl (.here (.inl rfl)))
  obtain ⟨r, hsays, h⟩ := (lookup_complete hreach 2 "x" false true).2 _ _ hfinds
  cases hsays with
  | declared _ _ hd => cases hd; exact ⟨hreach, h⟩
  | parameter hp => cases hp
  | rest _ hr => cases hr
  | captured ho => cases ho

end Arena

end ScriptIr.Scope
