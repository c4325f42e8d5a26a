import ScriptIr.Proofs.Lower.Scopes

/-!
# Names that enter a scope

A scope takes its names one after another, each in a slot that no name has yet. A name can be announced
before its declaration is reached; the declaration then finds the slot. Parameters need no slots.

* `declareNew_sat`, `setRest_sat`, `setParams_sat`: how names enter a scope that takes names.
* `declareLate_sat`: a name that enters a scope in which code has been lowered already.
* `declareAnnounced_sat`: the declaration of a name that has been announced.
-/
namespace ScriptIr

namespace Scope

open Code

variable {old : Scope} {name : String}

/-- A scope that has one name more, in a slot. -/
structure Gains (old : Scope) (name : String) (v : InstId) (new : Scope) : Prop where
  parent : new.parent = old.parent
  kind : new.kind = old.kind
  captures : new.SameCaptures old
  breakTarget : new.breakTarget = old.breakTarget
  continueTarget : new.continueTarget = old.continueTarget
  free : old.own? name = none
  own : ∀ other, new.own? other = if other = name then some (.cell v) else old.own? other
  hasLocal : ∀ other, old.locals.has other = true → new.locals.has other = true
  count : old.kind = .block → new.locals.length = old.locals.length + 1

theorem Table.length_put (t : Table α) (name : String) (value : α) :
    (t.put name value).length = if t.has name then t.length else t.length + 1 := by
  unfold put
  split <;> simp

theorem gains_put (d : Declaration) (h : old.own? name = none) :
    old.Gains name d.slot { old with locals := old.locals.put name d } := by
  obtain ⟨hp, hr, hl⟩ := untaken_of_own? h
  exact ⟨rfl, rfl, ⟨rfl, rfl⟩, rfl, rfl, h, own?_put_locals hp hr,
    fun _ ho => by rw [Table.has_put, ho, Bool.or_true], fun _ => by rw [Table.length_put, hl]; rfl⟩

theorem gains_rest {slot : InstId} (hkind : old.kind = .function) (hrest : old.rest = none)
    (h : old.own? name = none) : old.Gains name slot { old with rest := some (name, slot) } :=
  ⟨rfl, rfl, ⟨rfl, rfl⟩, rfl, rfl, h, own?_set_rest hrest h, fun _ ho => ho,
    fun hk => by rw [hkind] at hk; cases hk⟩

end Scope

namespace Lower

open Code Scope

variable {M : Mode} {strict : Prop}

/-- A computation on the scopes meets a contract if its outcome can be completed to a configuration. -/
theorem naming_sat {c : Config M.strict} {x : Naming α} {Q : α → Config M.strict → Prop}
    (h : match x c.scopes with
      | .error e _ => M.allowed e
      | .ok r a => ∃ d : Config M.strict, d.toState = { c.toState with scopes := a } ∧ Q r d) :
    Sat M (naming x) c Q := by
  unfold Sat naming
  cases hx : x c.scopes with
  | error e a => rw [hx] at h; exact h
  | ok r a => rw [hx] at h; exact h

theorem Mode.redeclaration (M : Mode) (name : String) : M.allowed (.redeclaration name) :=
  M.allows

namespace Config

variable {c : Config strict} {k : ScopeId} {name : String} {v : InstId} {ns : List String}
  {new : Scope} {a : Arena} {R U : Multiset Token}

theorem rescoped_gains (hg : (c.scopes.get k).Gains name v new)
    (hslot : .slot (c.home k) v k ∈ c.tokens) (hfrozen : strict → c.env k = none)
    (distinct : (U.map Token.key).Nodup)
    (block : ∀ f b l, .block f b l ∈ U ↔ .block f b l ∈ c.tokens)
    (others : ∀ l phase, l ≠ k → (.scope l phase ∈ U ↔ .scope l phase ∈ c.tokens))
    (here : (∃ phase, .scope k phase ∈ U) ↔ ∃ phase, .scope k phase ∈ c.tokens)
    (naming : ∀ names, .scope k (.naming names) ∈ U →
      c.env k = none ∧ names.Nodup ∧ ∀ other, (new.own? other).isSome ↔ other ∈ names)
    (settled : (∀ names, .scope k (.naming names) ∉ U) → c.env k ≠ none)
    (slot : ∀ f w l, .slot f w l ∈ U → .slot f w l ∈ c.tokens ∧ ¬(f = c.home k ∧ w = v))
    (kept : ∀ f w l, .slot f w l ∈ c.tokens → .slot f w l ∈ U ∨ l = k ∧ w = v) :
    c.Rescoped k new U := by
  obtain ⟨halloca, hunused⟩ := c.tokensOk.slot _ _ _ hslot
  -- a slot of the new scope is the new one or was its slot before
  have hcases : ∀ other s, new.own? other = some s →
      (other = name ∧ s = .cell v) ∨ (other ≠ name ∧ c.own? k other = some s) := by
    intro other s ho
    rw [hg.own] at ho
    split at ho
    · next heq => exact .inl ⟨heq, (Option.some.inj ho).symm⟩
    · next hne => exact .inr ⟨hne, ho⟩
  refine ⟨hg.parent, hg.kind, hg.captures, ?_, hg.hasLocal, fun hs he => absurd (hfrozen hs) he,
    ?_, ?_, ?_, ?_, ?_, distinct, block, others, here, naming, settled, ?_, ?_, ?_⟩
  · intro other s ho
    rw [hg.own, if_neg]
    · exact ho
    · rintro rfl
      exact absurd (hg.free.symm.trans ho) (by simp)
  · intro other w ho
    rcases hcases other _ ho with ⟨_, hw⟩ | ⟨_, ho'⟩
    · cases hw
      exact halloca
    · exact c.arenaOk.cell k other w ho'
  · intro other i ho
    rcases hcases other _ ho with ⟨_, hw⟩ | ⟨_, ho'⟩
    · cases hw
    · exact c.arenaOk.params k other i ho'
  · intro one other s h1 h2
    rcases hcases one s h1 with ⟨rfl, rfl⟩ | ⟨_, h1'⟩
    · rcases hcases other _ h2 with ⟨rfl, _⟩ | ⟨_, h2'⟩
      · rfl
      · exact absurd h2' (hunused k other rfl)
    · rcases hcases other s h2 with ⟨_, rfl⟩ | ⟨_, h2'⟩
      · exact absurd h1' (hunused k one rfl)
      · exact (c.arenaOk.slots k k one other s h1' h2' rfl).2
  · intro l one other s hl h1 h2 hhome
    rcases hcases one s h1 with ⟨_, rfl⟩ | ⟨_, h1'⟩
    · exact hunused l other hhome.symm h2
    · exact hl (c.arenaOk.slots k l one other s h1' h2 hhome).1.symm
  · intro t ht
    rw [hg.breakTarget, hg.continueTarget] at ht
    exact c.arenaOk.target k t ht
  · intro f w l hw
    obtain ⟨hold, hne⟩ := slot f w l hw
    refine ⟨hold, fun hf other ho => ?_⟩
    rcases hcases other _ ho with ⟨_, hcell⟩ | ⟨_, ho'⟩
    · cases hcell
      exact hne ⟨hf.symm, rfl⟩
    · exact (c.tokensOk.slot f w l hold).2 k other hf ho'
  · intro f w l hw
    refine (kept f w l hw).imp_right ?_
    rintro ⟨rfl, rfl⟩
    exact ⟨rfl, name, by rw [hg.own, if_pos rfl]⟩
  · intro hk
    obtain ⟨names, hnodup, hlength, hnames⟩ := c.arenaOk.counted k hk
    refine ⟨name :: names, List.nodup_cons.mpr ⟨fun hn => ?_, hnodup⟩, ?_, fun other => ?_⟩
    · have := (hnames name).mpr hn
      rw [show c.own? k name = none from hg.free] at this
      cases this
    · rw [hg.count hk, List.length_cons, hlength]
      rfl
    · rw [hg.own, List.mem_cons, ← hnames]
      split
      · next heq => simp [heq]
      · next hne => rw [or_iff_right hne]; rfl

theorem exists_gains (h : c.tokens = {.slot (c.home k) v k} + ({.scope k (.naming ns)} + R))
    (hg : (c.scopes.get k).Gains name v new) (hr : c.scopes.Replaced k new a) :
    ∃ d : Config strict, d.toLayout = c.withScopes a ∧
      d.tokens = {.scope k (.naming (ns ++ [name]))} + R ∧ c.Still d := by
  have hdist := c.tokensOk.distinct
  rw [h] at hdist
  obtain ⟨henv, hnodup, hnames⟩ := c.tokensOk.naming k ns (by simp [h])
  have hother : ∀ l phase, Token.scope l phase ∈ R → l ≠ k := fun l phase hl heq =>
    key_ne_of_distinct (distinct_rest hdist) hl (by rw [heq]; rfl)
  have hnew : name ∉ ns := fun hn => by
    have := (hnames name).mpr hn
    rw [show c.own? k name = none from hg.free] at this
    cases this
  refine (rescoped_gains (U := {.scope k (.naming (ns ++ [name]))} + R) hg (by simp [h])
    (fun _ => henv) (distinct_exchange (distinct_rest hdist) rfl) ?_ ?_ ?_ ?_ ?_ ?_ ?_).exists_config hr
  · intro f b l
    simp [h]
  · intro l phase hl
    simp [h, hl]
  · simp [h]
  · intro names hn
    rw [mem_add_singleton] at hn
    rcases hn with hn | hn
    · cases hn
      refine ⟨henv, List.nodup_append.mpr ⟨hnodup, List.nodup_singleton _, ?_⟩, fun other => ?_⟩
      · intro x hx y hy
        rw [List.mem_singleton.mp hy]
        exact fun hxy => hnew (hxy ▸ hx)
      · rw [hg.own, List.mem_append, List.mem_singleton]
        split
        · next heq => simp [heq]
        · next hne => rw [or_iff_left hne]; exact hnames other
    · exact absurd rfl (hother k _ hn)
  · intro hno
    exact absurd (by simp) (hno (ns ++ [name]))
  · intro f w l hw
    have hw' : .slot f w l ∈ R := by simpa using hw
    refine ⟨by simp [h, hw'], fun hfw => ?_⟩
    have hin : Token.slot f w l ∈ ({.scope k (.naming ns)} + R : Multiset Token) := by simp [hw']
    exact key_ne_of_distinct hdist hin (by rw [hfw.1, hfw.2]; rfl)
  · intro f w l hw
    simp only [h, Multiset.mem_add, Multiset.mem_singleton] at hw ⊢
    grind

/-- A name enters a scope in which code has been lowered. -/
theorem exists_gains_late (hloose : ¬strict) (h : c.tokens = {.slot (c.home k) v k} + R)
    (henv : c.env k ≠ none) (hg : (c.scopes.get k).Gains name v new)
    (hr : c.scopes.Replaced k new a) :
    ∃ d : Config strict, d.toLayout = c.withScopes a ∧ d.tokens = R ∧ c.Still d := by
  have hdist := c.tokensOk.distinct
  rw [h] at hdist
  refine (rescoped_gains (U := R) hg (by simp [h]) (fun hs => absurd hs hloose)
    (distinct_rest hdist) ?_ ?_ ?_ ?_ (fun _ => henv) ?_ ?_).exists_config hr
  · simp [h]
  · simp [h]
  · simp [h]
  · intro names hn
    exact absurd (c.tokensOk.naming k names (by simp [h, hn])).1 henv
  · intro f w l hw
    exact ⟨by simp [h, hw], fun hfw => key_ne_of_distinct hdist hw (by rw [hfw.1, hfw.2]; rfl)⟩
  · intro f w l hw
    simp only [h, Multiset.mem_add, Multiset.mem_singleton] at hw ⊢
    grind

/-- A change that keeps the names of a scope, and lets jumps out of it go to blocks entered in it. -/
theorem exists_same (hr : c.scopes.Replaced k new a) (hk : k < c.scopeCount)
    (hparent : new.parent = c.parent? k) (hkind : new.kind = c.kind k)
    (hcaptures : new.SameCaptures (c.scopes.get k))
    (hown : ∀ other, new.own? other = c.own? k other)
    (hlocal : ∀ other, c.HasLocal k other → new.locals.has other = true)
    (hcount : new.locals.length = c.scopes.variableCount k)
    (htarget : ∀ t, new.breakTarget = some t ∨ new.continueTarget = some t → c.HasBlock (c.home k) t k) :
    ∃ d : Config strict, d.toLayout = c.withScopes a ∧ d.tokens = c.tokens ∧ c.Still d := by
  have hrescoped : c.Rescoped k new c.tokens := by
    refine ⟨hparent, hkind, hcaptures, ?_, hlocal, fun _ _ => hown, ?_, ?_, ?_, ?_, htarget,
      c.tokensOk.distinct, fun _ _ _ => Iff.rfl, fun _ _ _ => Iff.rfl, Iff.rfl, ?_, ?_, ?_,
      fun _ _ _ => .inl, ?_⟩
    · intro other s ho
      rw [hown]
      exact ho
    · intro other w ho
      rw [hown] at ho
      exact c.arenaOk.cell k other w ho
    · intro other i ho
      rw [hown] at ho
      exact c.arenaOk.params k other i ho
    · intro one other s h1 h2
      rw [hown] at h1 h2
      exact (c.arenaOk.slots k k one other s h1 h2 rfl).2
    · intro l one other s hl h1 h2 hhome
      rw [hown] at h1
      exact hl (c.arenaOk.slots k l one other s h1 h2 hhome).1.symm
    · intro names hn
      simp only [hown]
      exact c.tokensOk.naming k names hn
    · exact c.tokensOk.settled k hk
    · intro f w l hw
      refine ⟨hw, fun hf other => ?_⟩
      rw [hown]
      exact (c.tokensOk.slot f w l hw).2 k other hf
    · intro hk
      simp only [hown, hcount]
      exact c.arenaOk.counted k hk
  exact hrescoped.exists_config hr

theorem rescoped_params {names : List String} (h : c.tokens = {.scope k (.naming [])} + R)
    (hkind : c.kind k = .function) (hnodup : names.Nodup)
    (hpositions : ∀ i name, names[i]? = some name → c.positions k name = some i) :
    c.Rescoped k { c.scopes.get k with params := (c.scopes.get k).params ++ names.zipIdx }
      ({.scope k (.naming names)} + R) := by
  have hdist := c.tokensOk.distinct
  rw [h] at hdist
  have hin : .scope k (.naming []) ∈ c.tokens := by simp [h]
  obtain ⟨henv, _, hnone⟩ := c.tokensOk.naming k [] hin
  have hempty : ∀ other, c.own? k other = none := fun other => by simpa using hnone other
  have hother : ∀ l phase, Token.scope l phase ∈ R → l ≠ k := fun l phase hl heq =>
    key_ne_of_distinct hdist hl (by rw [heq]; rfl)
  have hown : ∀ other, own?
      { c.scopes.get k with params := (c.scopes.get k).params ++ names.zipIdx } other =
        (Table.find? names.zipIdx other).map .parameter := Scope.own?_set_params hempty names
  have hcases : ∀ other s, own?
      { c.scopes.get k with params := (c.scopes.get k).params ++ names.zipIdx } other = some s →
        ∃ i, s = .parameter i ∧ names[i]? = some other := by
    intro other s ho
    rw [hown] at ho
    obtain ⟨i, hi, rfl⟩ := Option.map_eq_some_iff.mp ho
    exact ⟨i, rfl, (Table.getElem?_of_find?_zipIdx hi).2⟩
  refine ⟨rfl, rfl, ⟨rfl, rfl⟩, ?_, fun _ ho => ho, fun _ he => absurd henv he, ?_, ?_, ?_,
    ?_, fun t ht => c.arenaOk.target k t ht, distinct_exchange hdist rfl, ?_, ?_, ?_, ?_, ?_, ?_,
    fun f w l hw => .inl (by simpa [h] using hw), fun hk => by rw [hkind] at hk; cases hk⟩
  · intro other s ho
    rw [hempty] at ho
    cases ho
  · intro other w ho
    obtain ⟨i, hi, _⟩ := hcases other _ ho
    cases hi
  · intro other i ho
    obtain ⟨j, hj, hname⟩ := hcases other _ ho
    cases hj
    exact ⟨hkind, hpositions i other hname⟩
  · intro one other s h1 h2
    obtain ⟨i, rfl, hi⟩ := hcases one s h1
    obtain ⟨j, hj, hj'⟩ := hcases other _ h2
    cases hj
    exact Option.some.inj (hi.symm.trans hj')
  · intro l one other s hl h1 h2 hhome
    obtain ⟨i, rfl, _⟩ := hcases one s h1
    obtain ⟨hkind', _⟩ := c.arenaOk.params l other i h2
    exact hl (c.arenaOk.bodies l k (Layout.lt_of_own? h2) (c.tokensOk.scope k _ hin) hkind' hkind
      hhome.symm)
  · simp [h]
  · intro l phase hl
    simp [h, hl]
  · simp [h]
  · intro names' hn
    rcases mem_add_singleton.mp hn with hn | hn
    · cases hn
      refine ⟨henv, hnodup, fun other => ?_⟩
      rw [hown, Option.isSome_map, Table.isSome_find?_zipIdx]
    · exact absurd rfl (hother k _ hn)
  · intro hno
    exact absurd (by simp) (hno names)
  · intro f w l hw
    refine ⟨by simpa [h] using hw, fun _ other ho => ?_⟩
    obtain ⟨i, hi, _⟩ := hcases other _ ho
    cases hi

end Config

/-! ## Contracts -/

section Contracts

variable {c : Config M.strict} {k : ScopeId} {name : String} {v : InstId} {ns : List String}
  {R : Multiset Token}

/-- What a scope is like after a name entered it. -/
structure Config.Named (c : Config strict) (k : ScopeId) (names : List String) (R : Multiset Token)
    (d : Config strict) : Prop where
  still : c.Still d
  tokens : d.tokens = {.scope k (.naming names)} + R
  rest : (d.scopes.get k).rest = (c.scopes.get k).rest

theorem Config.lt_of_naming {c : Config strict} (h : .scope k (.naming ns) ∈ c.tokens) :
    k < c.scopeCount := c.tokensOk.scope k _ h

variable (constant : Bool)

section

variable (h : c.tokens = {.slot (c.home k) v k} + ({.scope k (.naming ns)} + R))
include h

theorem forwardDeclare_sat : Sat M (naming (Naming.forwardDeclare k name v constant)) c fun _ d =>
      c.Named k (ns ++ [name]) R d ∧ d.HasLocal k name := by
  have hin : .scope k (.naming ns) ∈ c.tokens := by simp [h]
  have hstep := Naming.forwardDeclare_sound (Config.lt_of_naming hin) name v constant
  refine naming_sat ?_
  cases hx : Naming.forwardDeclare k name v constant c.scopes with
  | error e a =>
    rw [hx] at hstep
    rw [show e = .redeclaration name from hstep]
    exact M.redeclaration name
  | ok r a =>
    rw [hx] at hstep
    obtain ⟨hfree, hr⟩ := hstep
    obtain ⟨d, hd, htokens, hstill⟩ := Config.exists_gains h (gains_put ⟨v, true, constant⟩ hfree) hr
    refine ⟨d, by rw [hd]; rfl, ⟨hstill, htokens, ?_⟩, ?_⟩
    · rw [hd]
      exact (congrArg rest hr.here).trans rfl
    · rw [hd]
      show (a.get k).locals.has name = true
      rw [hr.here]
      simp [Table.has_put]

theorem declareNew_sat (hname : name ∉ ns) :
    Sat M (naming (Naming.declare k name (some v) constant)) c fun _ d =>
      c.Named k (ns ++ [name]) R d := by
  have hin : .scope k (.naming ns) ∈ c.tokens := by simp [h]
  have hfree : (c.scopes.get k).own? name = none := by
    by_contra hne
    exact hname (((c.tokensOk.naming k ns hin).2.2 name).mp (Option.isSome_iff_ne_none.mpr hne))
  obtain ⟨a, hx, _, _, hr⟩ := Naming.declare_new (Config.lt_of_naming hin) hfree v constant
  refine naming_sat ?_
  rw [hx]
  obtain ⟨d, hd, htokens, hstill⟩ := Config.exists_gains h (gains_put ⟨v, false, constant⟩ hfree) hr
  refine ⟨d, by rw [hd]; rfl, hstill, htokens, ?_⟩
  rw [hd]
  exact (congrArg rest hr.here).trans rfl

theorem setRest_sat (hkind : c.kind k = .function) (hrest : (c.scopes.get k).rest = none) :
    Sat M (naming (Naming.setRest k name v)) c fun _ d =>
      c.Still d ∧ d.tokens = {.scope k (.naming (ns ++ [name]))} + R := by
  have hin : .scope k (.naming ns) ∈ c.tokens := by simp [h]
  have hstep := Naming.setRest_sound (Config.lt_of_naming hin) name v
  refine naming_sat ?_
  cases hx : Naming.setRest k name v c.scopes with
  | error e a =>
    rw [hx] at hstep
    rw [show e = .redeclaration name from hstep]
    exact M.redeclaration name
  | ok r a =>
    rw [hx] at hstep
    obtain ⟨hfree, hr⟩ := hstep
    obtain ⟨d, hd, htokens, hstill⟩ := Config.exists_gains h (Scope.gains_rest hkind hrest hfree) hr
    exact ⟨d, by rw [hd]; rfl, hstill, htokens⟩

end

theorem Config.valued_cell {c : Config strict} (h : c.own? k name = some (.cell v)) :
    c.Valued (c.home k) v := ⟨.alloca, c.arenaOk.cell k name v h, rfl⟩

theorem declareLate_sat (hloose : ¬M.strict)
    (h : c.tokens = {.slot (c.home k) v k} + R) (hk : k < c.scopeCount) (henv : c.env k ≠ none)
    (hlocal : (c.scopes.get k).locals.has name = false) :
    Sat M (naming (Naming.declare k name (some v) constant)) c fun w d =>
      c.Still d ∧ d.tokens = R ∧ d.own? k name = some (.cell w) := by
  refine naming_sat ?_
  cases htaken : (c.scopes.get k).params.has name || (c.scopes.get k).isRest name with
  | true =>
    rw [Naming.declare_eq, htaken]
    exact M.redeclaration name
  | false =>
    have hfree : (c.scopes.get k).own? name = none := by
      rw [Scope.own?_eq_none_iff, Scope.owns, htaken, hlocal, Bool.or_self]
    obtain ⟨a, hx, _, _, hr⟩ := Naming.declare_new hk hfree v constant
    have hg := gains_put ⟨v, false, constant⟩ hfree
    obtain ⟨d, hd, htokens, hstill⟩ := Config.exists_gains_late hloose h henv hg hr
    rw [hx]
    refine ⟨d, by rw [hd]; rfl, hstill, htokens, ?_⟩
    rw [hd, Config.Rescoped.own?_here hr, hg.own, if_pos rfl]

theorem declareAnnounced_sat (hk : k < c.scopeCount) (hlocal : c.HasLocal k name) :
    Sat M (naming (Naming.declare k name none constant)) c fun w d =>
      c.Still d ∧ d.tokens = c.tokens ∧ d.own? k name = some (.cell w) := by
  have hstep := Naming.declare_announced hk hlocal constant
  refine naming_sat ?_
  cases hx : Naming.declare k name none constant c.scopes with
  | error e a =>
    rw [hx] at hstep
    rw [show e = .redeclaration name from hstep]
    exact M.redeclaration name
  | ok w a =>
    rw [hx] at hstep
    obtain ⟨hown, hp, hrest, hr⟩ := hstep
    obtain ⟨d, hd, htokens, hstill⟩ := Config.exists_same hr hk rfl rfl ⟨rfl, rfl⟩ (fun other => by
        rw [Scope.own?_put_locals hp hrest]
        split
        · next heq => rw [heq]; exact hown.symm
        · rfl)
      (fun other ho => by rw [Table.has_put, show Table.has _ _ = true from ho, Bool.or_true])
        ((Table.length_put ..).trans (if_pos hlocal))
      (fun t ht => c.arenaOk.target k t ht)
    refine ⟨d, by rw [hd]; rfl, hstill, htokens, ?_⟩
    exact hstill.le.own k name _ hown

/-- A function takes its parameters before all other names. -/
theorem setParams_sat (names : List String) (h : c.tokens = {.scope k (.naming [])} + R)
    (hkind : c.kind k = .function)
    (hpositions : names.Nodup → ∀ i name, names[i]? = some name → c.positions k name = some i) :
    Sat M (naming (Naming.setParams k names)) c fun _ d =>
      c.Named k names R d ∧ ∀ i name, names[i]? = some name → d.own? k name = some (.parameter i) := by
  have hin : .scope k (.naming []) ∈ c.tokens := by simp [h]
  have hempty : ∀ other, c.own? k other = none := fun other => by
    simpa using (c.tokensOk.naming k [] hin).2.2 other
  have hstep := Naming.setParamsFrom_sound names (Config.lt_of_naming hin) 0
  unfold Naming.setParams
  refine naming_sat ?_
  cases hx : Naming.setParamsFrom k 0 names c.scopes with
  | error e a =>
    rw [hx] at hstep
    obtain ⟨name, rfl⟩ := hstep
    exact M.redeclaration name
  | ok r a =>
    rw [hx] at hstep
    obtain ⟨hnodup, _, hr⟩ := hstep
    obtain ⟨d, hd, htokens, hstill⟩ :=
      (Config.rescoped_params h hkind hnodup (hpositions hnodup)).exists_config hr
    refine ⟨d, by rw [hd]; rfl, ⟨hstill, htokens, ?_⟩, fun i name hi => ?_⟩
    · rw [hd]
      exact (congrArg rest hr.here).trans rfl
    · have hslot : d.own? k name = (Table.find? names.zipIdx name).map .parameter := by
        rw [hd]
        exact (congrArg (own? · name) hr.here).trans (Scope.own?_set_params hempty names name)
      rw [hslot, Table.find?_zipIdx hnodup hi]
      rfl

theorem setBreakTarget_sat {t : BlockId} (hk : k < c.scopeCount) (ht : c.HasBlock (c.home k) t k) :
    Sat M (modifyScopes (·.setBreakTarget k t)) c fun _ d => c.Still d ∧ d.tokens = c.tokens := by
  have hr := Arena.replaced_modify hk fun s : Scope => { s with breakTarget := some t }
  obtain ⟨d, hd, htokens, hstill⟩ := Config.exists_same hr hk rfl rfl ⟨rfl, rfl⟩ (fun _ => rfl)
    (fun _ ho => ho) rfl (fun u hu => by
      rcases hu with hu | hu
      · cases hu
        exact ht
      · exact c.arenaOk.target k u (.inr hu))
  exact ⟨d, by rw [hd]; rfl, hstill, htokens⟩

theorem setContinueTarget_sat {t : BlockId} (hk : k < c.scopeCount) (ht : c.HasBlock (c.home k) t k) :
    Sat M (modifyScopes (·.setContinueTarget k t)) c fun _ d =>
      c.Still d ∧ d.tokens = c.tokens := by
  have hr := Arena.replaced_modify hk fun s : Scope => { s with continueTarget := some t }
  obtain ⟨d, hd, htokens, hstill⟩ := Config.exists_same hr hk rfl rfl ⟨rfl, rfl⟩ (fun _ => rfl)
    (fun _ ho => ho) rfl (fun u hu => by
      rcases hu with hu | hu
      · exact c.arenaOk.target k u (.inl hu)
      · cases hu
        exact ht)
  exact ⟨d, by rw [hd]; rfl, hstill, htokens⟩

end Contracts

end Lower

end ScriptIr
