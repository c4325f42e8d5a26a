import ScriptIr.Proofs.Scope.Chain

/-!
# Names in scopes

What a scope declares itself is fixed by three tables; a capture comes last. Each way in which a name
enters a scope changes one scope of the arena, and a lookup adds captures to the scopes it passes.

* `Scope.own?`: the slot of a name that a scope declares.
-/
namespace ScriptIr

open List Option

namespace Scope

open Code (InstId)

variable {name : String} {s : Scope} {r : Resolved} {a b : Arena} {k p : ScopeId} {along : List ScopeId}

/-! ## Tables -/

namespace Table

variable {names : List String}

theorem find?_cons (e : String × α) (t : Table α) (name : String) :
    find? (e :: t) name = if e.1 = name then some e.2 else find? t name := by
  unfold find?
  rw [List.find?_cons]
  by_cases h : e.1 = name
  · simp [h]
  · have hb : (e.1 == name) = false := by simpa using h
    simp [h, hb]

theorem has_cons (e : String × α) (t : Table α) (name : String) :
    has (e :: t) name = (decide (e.1 = name) || has t name) := by
  unfold has
  rw [any_cons]
  rfl

theorem has_eq_isSome (t : Table α) (name : String) : t.has name = (t.find? name).isSome := by
  induction t with
  | nil => rfl
  | cons e t ih =>
    rw [has_cons, find?_cons, ih]
    split <;> simp_all

theorem find?_append_new {t : Table α} (h : t.has name = false) (value : α) (other : String) :
    find? (t ++ [(name, value)]) other = if other = name then some value else t.find? other := by
  induction t with
  | nil =>
    rw [nil_append, find?_cons]
    simp only [eq_comm]
  | cons e t ih =>
    rw [has_cons, Bool.or_eq_false_iff] at h
    have hne : e.1 ≠ name := by simpa using h.1
    rw [cons_append, find?_cons, find?_cons, ih h.2]
    by_cases he : e.1 = other
    · rw [if_pos he, if_pos he, if_neg (fun ho => hne (he.trans ho))]
    · rw [if_neg he, if_neg he]

theorem find?_map_put (t : Table α) (name : String) (value : α) (other : String) :
    find? (map (fun e => if e.1 == name then (name, value) else e) t) other =
      if other = name ∧ t.has name then some value else t.find? other := by
  induction t with
  | nil => simp [has]
  | cons e t ih =>
    rw [map_cons, find?_cons, find?_cons, has_cons, ih]
    by_cases he : e.1 = name
    · by_cases ho : other = name
      · simp [he, ho]
      · simp [he, ho, Ne.symm ho]
    · by_cases ho : other = name
      · subst ho
        simp [he]
      · simp [he, ho]

theorem find?_put (t : Table α) (name : String) (value : α) (other : String) :
    (t.put name value).find? other = if other = name then some value else t.find? other := by
  unfold put
  split
  · next h => rw [find?_map_put]; simp [h]
  · next h => exact find?_append_new (by simpa using h) value other

theorem has_put (t : Table α) (name : String) (value : α) (other : String) :
    (t.put name value).has other = (decide (other = name) || t.has other) := by
  rw [has_eq_isSome, has_eq_isSome, find?_put]
  split <;> simp [*]

/-- In a numbered list of names, a name stands for the position of one of its places. -/
theorem getElem?_of_find?_zipIdx {start n : Nat} (h : find? (names.zipIdx start) name = some n) :
    start ≤ n ∧ names[n - start]? = some name := by
  induction names generalizing start with
  | nil => cases h
  | cons x names ih =>
    rw [zipIdx_cons, find?_cons] at h
    split at h
    · next hx =>
      cases h
      exact ⟨le_rfl, by rw [Nat.sub_self]; exact congrArg some hx⟩
    · obtain ⟨hle, hget⟩ := ih h
      refine ⟨by omega, ?_⟩
      rw [show n - start = n - (start + 1) + 1 by omega, getElem?_cons_succ]
      exact hget

theorem isSome_find?_zipIdx (names : List String) (start : Nat) (name : String) :
    (find? (names.zipIdx start) name).isSome ↔ name ∈ names := by
  induction names generalizing start with
  | nil => simp [find?]
  | cons x names ih =>
    rw [zipIdx_cons, find?_cons, mem_cons, ← ih (start + 1)]
    by_cases hx : x = name
    · simp [hx]
    · simp [hx, Ne.symm hx]

theorem find?_zipIdx (hnodup : names.Nodup) {i : Nat} (hi : names[i]? = some name) :
    find? names.zipIdx name = some i := by
  obtain ⟨j, hj⟩ := isSome_iff_exists.mp
    ((isSome_find?_zipIdx names 0 name).mpr (List.mem_of_getElem? hi))
  have hname : names[j]? = some name := (getElem?_of_find?_zipIdx hj).2
  have hlt := (List.getElem?_eq_some_iff.mp hname).1
  rw [hj, (List.getElem?_inj hlt hnodup).mp (hname.trans hi.symm)]

end Table

/-! ## Own names -/

/-- Where a declared name lives: an argument of the function, or a slot made by an instruction. -/
inductive Slot where
  | parameter (index : Nat)
  | cell (inst : InstId)
  deriving DecidableEq, Repr, Inhabited

def Slot.position? : Slot → Option Nat
  | .parameter index => some index
  | .cell _ => none

def own? (s : Scope) (name : String) : Option Slot :=
  match s.params.find? name with
  | some index => some (.parameter index)
  | none =>
    match s.rest.filter (fun r => r.1 == name) with
    | some (_, slot) => some (.cell slot)
    | none => (s.locals.find? name).map (.cell ·.slot)

theorem isRest_eq (s : Scope) (name : String) :
    s.isRest name = (s.rest.filter (fun r => r.1 == name)).isSome := by
  unfold isRest
  cases s.rest with
  | none => rfl
  | some r => cases h : r.1 == name <;> simp [h]

theorem owns_eq_isSome (s : Scope) (name : String) : s.owns name = (s.own? name).isSome := by
  unfold owns own?
  rw [Table.has_eq_isSome, Table.has_eq_isSome, isRest_eq]
  cases s.params.find? name with
  | some i => rfl
  | none =>
    cases s.rest.filter (fun r => r.1 == name) with
    | some r => rfl
    | none => cases s.locals.find? name <;> rfl

theorem own?_eq_none_iff : s.own? name = none ↔ s.owns name = false := by
  rw [owns_eq_isSome, isSome_eq_false_iff, isNone_iff_eq_none]

theorem untaken_of_own? (h : s.own? name = none) :
    s.params.has name = false ∧ s.isRest name = false ∧ s.locals.has name = false := by
  have howns := own?_eq_none_iff.mp h
  rwa [owns, Bool.or_eq_false_iff, Bool.or_eq_false_iff, and_assoc] at howns

theorem own?_of_local {d : Declaration} (hp : s.params.has name = false) (hr : s.isRest name = false)
    (hd : s.locals.find? name = some d) : s.own? name = some (.cell d.slot) := by
  simp only [Table.has_eq_isSome, isRest_eq, isSome_eq_false_iff, isNone_iff_eq_none] at hp hr
  simp only [own?, hp, hr, hd, map_some]

/-- What a scope knows about a name is its own slot, or else a capture. -/
theorem binding?_cases (h : s.binding? name = some r) :
    (∃ i, s.own? name = some (.parameter i) ∧ r.binding = .parameter i) ∨
    (∃ v, s.own? name = some (.cell v) ∧
      (r.binding = .rest v ∨ r.binding = .slot v ∨ r.binding = .forward v)) ∨
    (s.own? name = none ∧ s.capture? name = some r) := by
  unfold binding? at h
  unfold own?
  cases hp : s.params.find? name with
  | some i =>
    simp only [hp, some.injEq] at h
    exact .inl ⟨i, rfl, by rw [← h]⟩
  | none =>
    simp only [hp] at h
    cases hr : s.rest.filter (fun r => r.1 == name) with
    | some e =>
      simp only [hr, some.injEq] at h
      exact .inr (.inl ⟨e.2, rfl, .inl (by rw [← h])⟩)
    | none =>
      simp only [hr] at h
      cases hl : s.locals.find? name with
      | some d =>
        simp only [hl, some.injEq] at h
        refine .inr (.inl ⟨d.slot, rfl, .inr ?_⟩)
        cases hf : d.forward
        · exact .inl (by rw [← h]; simp [hf])
        · exact .inr (by rw [← h]; simp [hf])
      | none =>
        simp only [hl] at h
        exact .inr (.inr ⟨rfl, h⟩)

theorem binding?_isSome (s : Scope) (name : String) :
    (s.binding? name).isSome = ((s.own? name).isSome || (s.capture? name).isSome) := by
  unfold binding? own?
  cases s.params.find? name with
  | some i => rfl
  | none =>
    cases s.rest.filter (fun r => r.1 == name) with
    | some r => rfl
    | none => cases s.locals.find? name <;> simp

/-- Whether a name's declaration has yet to be reached. -/
def Binding.isForward : Binding → Bool
  | .forward _ => true
  | _ => false

theorem own?_eq_none_of_binding? (h : s.binding? name = none) : s.own? name = none := by
  have := binding?_isSome s name
  rw [h] at this
  simpa using (Bool.or_eq_false_iff.mp this.symm).1

theorem own?_put_locals {d : Declaration} (h : s.params.has name = false) (hr : s.isRest name = false)
    (other : String) :
    own? { s with locals := s.locals.put name d } other =
      if other = name then some (.cell d.slot) else s.own? other := by
  by_cases ho : other = name
  · subst ho
    rw [if_pos rfl]
    exact own?_of_local h hr (by rw [Table.find?_put, if_pos rfl])
  · simp [own?, ho, Table.find?_put]

theorem own?_set_rest {slot : InstId} (hrest : s.rest = none) (h : s.own? name = none) (other : String) :
    own? { s with rest := some (name, slot) } other =
      if other = name then some (.cell slot) else s.own? other := by
  unfold own? at h ⊢
  rw [hrest] at h ⊢
  by_cases ho : other = name
  · subst ho
    cases hp : s.params.find? other with
    | some i => simp [hp] at h
    | none => simp [Option.filter]
  · have hb : (name == other) = false := by simpa using Ne.symm ho
    simp [Option.filter, hb, ho]

theorem own?_set_params (h : ∀ name, s.own? name = none) (names : List String) (name : String) :
    own? { s with params := s.params ++ names.zipIdx } name =
      (Table.find? names.zipIdx name).map .parameter := by
  have hnil : s.params = [] := by
    cases hp : s.params with
    | nil => rfl
    | cons e t =>
      have := h e.1
      unfold own? at this
      rw [hp, Table.find?_cons, if_pos rfl] at this
      cases this
  have := h name
  unfold own? at this ⊢
  simp only [hnil, nil_append] at this ⊢
  cases Table.find? names.zipIdx name with
  | some i => rfl
  | none => simpa [Table.find?] using this

/-! ## Captures -/

def Knows (s : Scope) (name : String) : Prop := s.owns name ∨ ∃ c ∈ s.captures, c.name = name

instance (s : Scope) (name : String) : Decidable (s.Knows name) :=
  inferInstanceAs (Decidable (s.owns name ∨ ∃ c ∈ s.captures, c.name = name))

/-- Captures are numbered in order, and the table of captured names holds exactly their names, each
with the place of its capture. -/
structure Indexed (s : Scope) : Prop where
  numbered : ∀ (i : Nat) (c : Capture), s.captures[i]? = some c → c.index = i
  found : ∀ (name : String) (i : Nat),
    s.captureIndex.find? name = some i ↔ (s.captures[i]?).map (·.name) = some name

theorem indexed_new (parent : Option ScopeId) (kind : Kind) : Indexed { parent, kind } :=
  ⟨by simp, by simp [Table.find?]⟩

theorem capture?_eq_some_iff : s.capture? name = some r ↔ ∃ i c,
    s.captureIndex.find? name = some i ∧ s.captures[i]? = some c ∧ r = ⟨.capture i, c.constant⟩ := by
  simp [capture?, bind_eq_some_iff, eq_comm (b := r)]

namespace Indexed

section

variable (h : s.Indexed)
include h

/-- A name stands in the table once, so no two captures have one name. -/
theorem distinct : (s.captures.map (·.name)).Nodup := by
  refine pairwise_iff_getElem.mpr fun i j hi hj hij he => ?_
  have hplace : ∀ (k : Nat) (hk : k < (s.captures.map (·.name)).length),
      s.captureIndex.find? (s.captures.map (·.name))[k] = some k := fun k hk =>
    (h.found _ k).mpr (by rw [← getElem?_map, getElem?_eq_getElem hk])
  exact Nat.ne_of_lt hij (some.inj ((hplace i hi).symm.trans (he ▸ hplace j hj)))

theorem getElem?_capture (hr : s.capture? name = some r) :
    ∃ i c, s.captures[i]? = some c ∧ c.name = name ∧ r = ⟨.capture i, c.constant⟩ := by
  obtain ⟨i, c, hi, hc, rfl⟩ := capture?_eq_some_iff.mp hr
  have hname := (h.found name i).mp hi
  rw [hc] at hname
  exact ⟨i, c, hc, some.inj hname, rfl⟩

theorem isSome_binding?_iff : (s.binding? name).isSome ↔ s.Knows name := by
  rw [binding?_isSome, Bool.or_eq_true, ← owns_eq_isSome]
  refine or_congr_right ⟨fun hs => ?_, ?_⟩
  · obtain ⟨r, hr⟩ := isSome_iff_exists.mp hs
    obtain ⟨i, c, hc, hname, _⟩ := h.getElem?_capture hr
    exact ⟨c, mem_of_getElem? hc, hname⟩
  · rintro ⟨c, hc, rfl⟩
    obtain ⟨i, hi⟩ := mem_iff_getElem?.mp hc
    have hfound := (h.found c.name i).mpr (by rw [hi]; rfl)
    rw [capture?_eq_some_iff.mpr ⟨i, c, hfound, hi, rfl⟩]
    rfl

theorem binding?_eq_none_iff : s.binding? name = none ↔ ¬s.Knows name := by
  rw [← h.isSome_binding?_iff]
  simp

/-- A name that is not known yet becomes the last capture. -/
theorem withCapture (hnew : ¬s.Knows name) (constant : Bool) : (s.withCapture name constant).Indexed where
  numbered i c hi := by
    unfold Scope.withCapture at hi
    rw [getElem?_append] at hi
    split at hi
    · exact h.numbered i c hi
    · rw [getElem?_singleton] at hi
      split at hi
      · cases hi
        simp only
        omega
      · cases hi
  found other i := by
    have hold := h.found other i
    unfold Scope.withCapture
    rw [Table.find?_put, getElem?_append]
    rcases Nat.lt_trichotomy i s.captures.length with hlt | heq | hgt
    · rw [if_pos hlt, ← hold]
      split
      next ho =>
        have hne : s.captureIndex.find? other ≠ some i := fun hi => by
          obtain ⟨c, hc, hname⟩ := map_eq_some_iff.mp (hold.mp hi)
          exact hnew (.inr ⟨c, mem_of_getElem? hc, hname.trans ho⟩)
        simp [hne, Nat.ne_of_gt hlt]
      next => rfl
    · subst heq
      rw [getElem?_eq_none le_rfl] at hold
      by_cases ho : other = name
      · simp [ho]
      · simp [ho, Ne.symm ho, hold]
    · rw [getElem?_eq_none (Nat.le_of_lt hgt)] at hold
      have hsub : i - s.captures.length ≠ 0 := by omega
      by_cases ho : other = name
      · simp [ho, hsub, Nat.not_lt_of_lt hgt, Nat.ne_of_lt hgt]
      · simp [ho, hsub, Nat.not_lt_of_lt hgt, hold]

end

end Indexed

section

variable (h : s.binding? name = none) (constant : Bool)
include h

/-- A scope that did not know a name knows it as its last capture once it is recorded. -/
theorem binding?_withCapture_self :
    (s.withCapture name constant).binding? name = some ⟨.capture s.captures.length, constant⟩ := by
  unfold binding? at h ⊢
  simp only [withCapture]
  split at h
  · cases h
  · split at h
    · cases h
    · split at h
      · cases h
      · exact capture?_eq_some_iff.mpr ⟨_, _, by rw [Table.find?_put, if_pos rfl],
          getElem?_concat_length, rfl⟩

theorem binding?_withCapture {other : String} (hr : s.binding? other = some r) :
    (s.withCapture name constant).binding? other = some r := by
  have hne : other ≠ name := by
    rintro rfl
    rw [h] at hr
    cases hr
  unfold binding? at hr ⊢
  simp only [withCapture]
  split at hr
  · exact hr
  · split at hr
    · exact hr
    · split at hr
      · exact hr
      · obtain ⟨i, c, hi, hc, rfl⟩ := capture?_eq_some_iff.mp hr
        refine capture?_eq_some_iff.mpr ⟨i, c, by rw [Table.find?_put, if_neg hne]; exact hi, ?_, rfl⟩
        rw [List.getElem?_append_left (List.getElem?_eq_some_iff.mp hc).1]
        exact hc

end

/-- Two scopes that have captured the same names in the same places. -/
def SameCaptures (s t : Scope) : Prop := s.captures = t.captures ∧ s.captureIndex = t.captureIndex

theorem SameCaptures.capture? {t : Scope} (h : s.SameCaptures t) : s.capture? name = t.capture? name := by
  unfold Scope.capture?
  rw [h.1, h.2]

theorem SameCaptures.indexed {t : Scope} (h : s.SameCaptures t) (ht : t.Indexed) : s.Indexed :=
  ⟨h.1 ▸ ht.numbered, h.1 ▸ h.2 ▸ ht.found⟩

namespace Arena

/-! ## Sound arenas -/

/-- Parents are older than their children, and the table of captured names of each scope agrees with its
captures. -/
structure Rooted (a : Arena) : Prop where
  parent_lt : ∀ k p : ScopeId, (a.get k).parent = some p → p < k
  indexed : ∀ k, (a.get k).Indexed

/-- Besides, the parent of a scope knows each name that the scope captures. -/
structure Sound (a : Arena) : Prop extends a.Rooted where
  visible : ∀ (k : ScopeId) (c : Capture), c ∈ a.captures k →
    ∃ p, (a.get k).parent = some p ∧ ((a.get p).binding? c.name).isSome

theorem sound_empty : empty.Sound where
  parent_lt k p h := by simp [empty, get_of_size_le] at h
  indexed k := by
    rw [get_of_size_le (Nat.zero_le k)]
    exact indexed_new none .function
  visible k c h := by simp [empty, captures, get_of_size_le] at h

theorem Sound.chain_inner (h : a.Sound) (hp : (a.get k).parent = some p) : a.chain k = k :: a.chain p :=
  Arena.chain_inner hp (h.parent_lt k p hp)

/-! ## Changing one scope -/

/-- An arena that differs from `a` in scope `k` only, which is now `new`. -/
structure Replaced (a : Arena) (k : ScopeId) (new : Scope) (b : Arena) : Prop where
  size : b.scopes.size = a.scopes.size
  here : b.get k = new
  other : ∀ x, x ≠ k → b.get x = a.get x

theorem replaced_modify (h : k < a.scopes.size) (change : Scope → Scope) :
    a.Replaced k (change (a.get k)) (a.modify k change) where
  size := size_modify a k change
  here := get_modify_same h change
  other _ hx := get_modify_other a hx change

theorem Sound.replaced {new : Scope} (h : a.Sound) (hr : a.Replaced k new b)
    (hparent : new.parent = (a.get k).parent) (hcaptures : new.SameCaptures (a.get k))
    (hknown : ∀ name, ((a.get k).own? name).isSome → (new.own? name).isSome) : b.Sound := by
  have hp : ∀ x, (b.get x).parent = (a.get x).parent := by
    intro x
    by_cases hx : x = k
    · rw [hx, hr.here, hparent]
    · rw [hr.other x hx]
  have hc : ∀ x, (b.get x).SameCaptures (a.get x) := by
    intro x
    by_cases hx : x = k
    · rw [hx, hr.here]
      exact hcaptures
    · rw [hr.other x hx]
      exact ⟨rfl, rfl⟩
  refine ⟨⟨fun x p hx => h.parent_lt x p (hp x ▸ hx), fun x => (hc x).indexed (h.indexed x)⟩, ?_⟩
  intro x c hx
  rw [captures, (hc x).1] at hx
  obtain ⟨p, hpar, hb⟩ := h.visible x c hx
  refine ⟨p, by rw [hp x, hpar], ?_⟩
  by_cases hpk : p = k
  · subst hpk
    rw [binding?_isSome, Bool.or_eq_true] at hb
    rw [hr.here, binding?_isSome, Bool.or_eq_true]
    exact hb.imp (hknown c.name) (hcaptures.capture? ▸ ·)
  · rw [hr.other p hpk]
    exact hb

end Arena

/-! ## Lookup -/

/-- An arena in which scopes of a list may have captured more names. What was known stays known. -/
structure Arena.Captured (a : Arena) (along : List ScopeId) (b : Arena) : Prop where
  size : b.scopes.size = a.scopes.size
  get : ∀ x, ∃ more index, b.get x = { a.get x with
      captures := a.captures x ++ more, captureIndex := index } ∧ (more ≠ [] → x ∈ along)
  binding? : ∀ {x name r}, (a.get x).binding? name = some r → (b.get x).binding? name = some r

theorem Arena.Captured.refl (a : Arena) (along : List ScopeId) : a.Captured along a :=
  ⟨rfl, fun x => ⟨[], (a.get x).captureIndex, by simp [Arena.captures], fun h => absurd rfl h⟩, id⟩

namespace Arena

variable {x : ScopeId}

section

variable (h : a.Captured along b)
include h

theorem Captured.own? (x : ScopeId) : (b.get x).own? = (a.get x).own? := by
  obtain ⟨more, index, hx, _⟩ := h.get x
  rw [hx]
  rfl

theorem Captured.parent (x : ScopeId) : (b.get x).parent = (a.get x).parent := by
  obtain ⟨more, index, hx, _⟩ := h.get x
  rw [hx]

theorem Captured.mono {longer : List ScopeId} (hsub : ∀ x ∈ along, x ∈ longer) : a.Captured longer b where
  size := h.size
  get x := by
    obtain ⟨more, index, hx, hm⟩ := h.get x
    exact ⟨more, index, hx, fun hne => hsub x (hm hne)⟩
  binding? := h.binding?

end

theorem lt_size_of_parent (h : (a.get k).parent = some p) : k < a.scopes.size := by
  rcases Nat.lt_or_ge k a.scopes.size with hk | hk
  · exact hk
  · rw [get_of_size_le hk] at h
    cases h

theorem Rooted.push (h : a.Rooted) {parent : Option ScopeId} (kind : Kind)
    (hparent : ∀ p, parent = some p → p < a.scopes.size) : (a.push parent kind).2.Rooted where
  parent_lt x p hp := by
    rw [get_push] at hp
    split at hp
    · next hx => exact hx ▸ hparent p hp
    · exact h.parent_lt x p hp
  indexed x := by
    rw [get_push]
    split
    · exact indexed_new parent kind
    · exact h.indexed x

theorem sound_push (h : a.Sound) {parent : Option ScopeId} (kind : Kind)
    (hparent : ∀ outer, parent = some outer → outer < a.scopes.size) :
    (a.push parent kind).2.Sound := by
  refine ⟨h.toRooted.push kind hparent, fun k c hc => ?_⟩
  have hold : ∀ k, k ≠ a.scopes.size → (a.push parent kind).2.get k = a.get k := fun k hk => by
    rw [get_push, if_neg hk]
  unfold captures at hc
  by_cases hk : k = a.scopes.size
  · rw [get_push, if_pos hk] at hc
    cases hc
  · rw [hold k hk] at hc ⊢
    obtain ⟨outer, hp, hb⟩ := h.visible k c hc
    have hlt : outer < a.scopes.size :=
      Nat.lt_trans (h.parent_lt k outer hp) (lt_size_of_parent hp)
    exact ⟨outer, hp, by rw [hold outer (Nat.ne_of_lt hlt)]; exact hb⟩

/-! ## Where a name is found -/

/-- Seen from a scope, the first one that knows a name is `found`, and the way there leads through the
scopes `passed`, innermost first. -/
inductive Finds (a : Arena) (name : String) : ScopeId → List ScopeId → ScopeId → Prop where
  | here {k : ScopeId} : (a.get k).Knows name → Finds a name k [] k
  | outer {k p found : ScopeId} {passed : List ScopeId} : ¬(a.get k).Knows name →
      (a.get k).parent = some p → Finds a name p passed found → Finds a name k (k :: passed) found

def recorded (a : Arena) (name : String) (constant : Bool) (passed : List ScopeId) : Arena :=
  passed.foldr (fun k b => b.addCapture k name constant) a

variable {found : ScopeId} {passed : List ScopeId}

theorem Finds.mem_chain (ha : a.Rooted) (h : a.Finds name k passed found) (hx : x ∈ passed) :
    x ∈ a.chain k := by
  induction h with
  | here => cases hx
  | outer _ hp _ ih =>
    rw [chain_inner hp (ha.parent_lt _ _ hp)]
    rcases mem_cons.mp hx with rfl | hx
    · exact mem_cons_self
    · exact mem_cons_of_mem _ (ih hx)

theorem Finds.known (ha : a.Rooted) (h : a.Finds name k passed found) :
    ∃ r, (a.get found).binding? name = some r := by
  induction h with
  | @here k hk => exact isSome_iff_exists.mp ((ha.indexed k).isSome_binding?_iff.mpr hk)
  | outer _ _ _ ih => exact ih

theorem Finds.unknown (h : a.Finds name k passed found) : ∀ x ∈ passed, ¬(a.get x).Knows name := by
  induction h with
  | here => simp
  | outer hb _ _ ih => exact forall_mem_cons.mpr ⟨hb, ih⟩

theorem Finds.notMem (ha : a.Rooted) (hp : (a.get k).parent = some p) (h : a.Finds name p passed found) :
    k ∉ passed := fun hk =>
  Nat.lt_irrefl k (Nat.lt_of_le_of_lt (le_of_mem_chain (h.mem_chain ha hk)) (ha.parent_lt k p hp))

theorem size_recorded (a : Arena) (name : String) (constant : Bool) (passed : List ScopeId) :
    (a.recorded name constant passed).scopes.size = a.scopes.size := by
  induction passed with
  | nil => rfl
  | cons k passed ih => exact (size_modify _ _ _).trans ih

/-- A name is recorded as the next capture of the scopes that it is looked for in, and nowhere else. -/
theorem Finds.get_recorded (ha : a.Rooted) (h : a.Finds name k passed found) (constant : Bool)
    (x : ScopeId) : (a.recorded name constant passed).get x =
      if x ∈ passed then (a.get x).withCapture name constant else a.get x := by
  induction h generalizing x with
  | here => rfl
  | @outer k p _ passed _ hp h ih =>
    have hlt : k < (a.recorded name constant passed).scopes.size :=
      size_recorded a .. ▸ lt_size_of_parent hp
    rw [recorded, foldr_cons, ← recorded, addCapture, get_modify]
    by_cases hx : x = k
    · subst hx
      rw [if_pos ⟨rfl, hlt⟩, if_pos mem_cons_self, ih, if_neg (h.notMem ha hp)]
    · rw [if_neg fun h => hx h.1, ih]
      simp only [mem_cons, hx, false_or]

theorem Finds.captured (ha : a.Rooted) (h : a.Finds name k passed found) (constant : Bool) :
    a.Captured passed (a.recorded name constant passed) where
  size := size_recorded a name constant passed
  get x := by
    rw [h.get_recorded ha]
    split
    · next hx => exact ⟨_, _, rfl, fun _ => hx⟩
    · exact (Captured.refl a passed).get x
  binding? {x _ _} hr := by
    rw [h.get_recorded ha]
    split
    · next hx =>
      exact binding?_withCapture ((ha.indexed x).binding?_eq_none_iff.mpr (h.unknown x hx)) constant hr
    · exact hr

theorem Finds.binding?_recorded (ha : a.Rooted) (hb : ¬(a.get k).Knows name)
    (hp : (a.get k).parent = some p) (h : a.Finds name p passed found) (constant : Bool) :
    ((a.recorded name constant (k :: passed)).get k).binding? name =
      some ⟨.capture (a.captures k).length, constant⟩ := by
  rw [(Finds.outer hb hp h).get_recorded ha, if_pos mem_cons_self]
  exact binding?_withCapture_self ((ha.indexed k).binding?_eq_none_iff.mpr hb) constant

theorem Finds.rooted (ha : a.Rooted) (h : a.Finds name k passed found) (constant : Bool) :
    (a.recorded name constant passed).Rooted where
  parent_lt x p hp := ha.parent_lt x p ((h.captured ha constant).parent x ▸ hp)
  indexed x := by
    rw [h.get_recorded ha]
    split
    · next hx => exact (ha.indexed x).withCapture (h.unknown x hx) constant
    · exact ha.indexed x

/-- From the parent of a scope that is passed on the way, the rest of the way is left. -/
theorem Finds.further (h : a.Finds name k passed found) (hx : x ∈ passed) :
    ∃ p rest, (a.get x).parent = some p ∧ a.Finds name p rest found ∧ ∀ y ∈ rest, y ∈ passed := by
  induction h with
  | here => cases hx
  | @outer k p _ passed _ hp h ih =>
    rcases mem_cons.mp hx with rfl | hx
    · exact ⟨p, passed, hp, h, fun _ => mem_cons_of_mem _⟩
    · obtain ⟨q, rest, hq, hf, hsub⟩ := ih hx
      exact ⟨q, rest, hq, hf, fun y hy => mem_cons_of_mem _ (hsub y hy)⟩

theorem Finds.sound (ha : a.Sound) (h : a.Finds name k passed found) (constant : Bool) :
    (a.recorded name constant passed).Sound := by
  have hroot := ha.toRooted
  have hcap := h.captured hroot constant
  refine ⟨h.rooted hroot constant, fun x c hc => ?_⟩
  rw [hcap.parent]
  have hold : c ∈ a.captures x → ∃ p, (a.get x).parent = some p ∧
      (((a.recorded name constant passed).get p).binding? c.name).isSome := fun hc => by
    obtain ⟨p, hp, hb⟩ := ha.visible x c hc
    obtain ⟨r, hr⟩ := isSome_iff_exists.mp hb
    exact ⟨p, hp, by rw [hcap.binding? hr]; rfl⟩
  rw [captures, h.get_recorded hroot] at hc
  split at hc
  · next hx =>
    rcases mem_append.mp hc with hc | hc
    · exact hold hc
    -- the parent has either been passed as well, or knew the name
    · rw [mem_singleton.mp hc]
      obtain ⟨p, rest, hp, hf, hsub⟩ := h.further hx
      refine ⟨p, hp, ?_⟩
      cases hf with
      | here hk =>
        obtain ⟨r, hr⟩ := h.known hroot
        rw [hcap.binding? hr]
        rfl
      | outer hb hq hf =>
        rw [h.get_recorded hroot, if_pos (hsub p mem_cons_self),
          binding?_withCapture_self ((ha.indexed p).binding?_eq_none_iff.mpr hb)]
        rfl
  · exact hold hc

theorem Rooted.finds (ha : a.Rooted) (name : String) (k : ScopeId) :
    (∃ passed found, a.Finds name k passed found) ∨ ∀ x ∈ a.chain k, ¬(a.get x).Knows name := by
  induction k using Nat.strongRecOn with
  | ind k ih =>
    by_cases hk : (a.get k).Knows name
    · exact .inl ⟨[], k, .here hk⟩
    cases hp : (a.get k).parent with
    | none =>
      rw [chain_root hp]
      exact .inr (by simpa using hk)
    | some p =>
      rw [chain_inner hp (ha.parent_lt k p hp)]
      rcases ih p (ha.parent_lt k p hp) with ⟨passed, found, h⟩ | h
      · exact .inl ⟨_, _, .outer hk hp h⟩
      · exact .inr (by simpa [hk] using h)

end Arena

namespace Naming

open Arena

theorem get_bind {α : Type} (f : Arena → Naming α) (a : Arena) : (get >>= f) a = f a a := rfl

theorem lookupAlong_cons (name : String) (k : ScopeId) (outer : List ScopeId)
    (tolerant upper : Bool) (a : Arena) :
    lookupAlong name (k :: outer) tolerant upper a = match (a.get k).binding? name with
      | some ⟨.forward slot, constant⟩ =>
        if tolerant then .ok (some ⟨.forward slot, constant⟩) a else .error (.undefined name) a
      | some r => .ok (some r) a
      | none =>
        match lookupAlong name outer upper true a with
        | .error e b => .error e b
        | .ok none b => .ok none b
        | .ok (some r) b =>
          .ok (some ⟨.capture (b.captures k).length, r.constant⟩) (b.addCapture k name r.constant) := by
  cases hb : (a.get k).binding? name with
  | some r =>
    obtain ⟨binding, constant⟩ := r
    simp only [lookupAlong, get_bind, hb]
    cases binding with
    | forward slot => cases tolerant <;> rfl
    | parameter i | rest v | slot v | capture i => rfl
  | none =>
    simp only [lookupAlong, get_bind, hb]
    simp only [bind, EStateM.bind]
    cases lookupAlong name outer upper true a with
    | error e b => rfl
    | ok r b => cases r <;> rfl

/-- Whether a lookup refuses a name that it finds so many scopes further out because its declaration
has yet to be reached. -/
abbrev Refuses (tolerant upper : Bool) (r : Resolved) (passed : Nat) : Prop :=
  r.binding.isForward ∧ (passed = 0 ∧ tolerant = false ∨ passed = 1 ∧ upper = false)

def answer (a : Arena) (k : ScopeId) (r : Resolved) : List ScopeId → Resolved
  | [] => r
  | _ => ⟨.capture (a.captures k).length, r.constant⟩

variable {found : ScopeId} {passed : List ScopeId}

/-- A lookup of a name that some scope knows: it fails if the name may not be used yet, and otherwise
the scopes that it has passed have captured the name. -/
theorem lookupAlong_finds (ha : a.Rooted) (h : a.Finds name k passed found)
    (hr : (a.get found).binding? name = some r) (tolerant upper : Bool) :
    lookupAlong name (a.chain k) tolerant upper a =
      if Refuses tolerant upper r passed.length then .error (.undefined name) a
      else .ok (some (answer a k r passed)) (a.recorded name r.constant passed) := by
  induction h generalizing tolerant upper with
  | @here k =>
    obtain ⟨outer, hchain⟩ := exists_chain_eq_cons a k
    rw [hchain, lookupAlong_cons, hr]
    obtain ⟨binding, constant⟩ := r
    cases binding with
    | forward slot => cases tolerant <;> rfl
    | parameter i | rest v | slot v | capture i => rfl
  | @outer k p found passed hb hp h ih =>
    have hflag : Refuses upper true r passed.length ↔ Refuses tolerant upper r (k :: passed).length := by
      simp [Refuses]
    rw [chain_inner hp (ha.parent_lt k p hp), lookupAlong_cons,
      (ha.indexed k).binding?_eq_none_iff.mpr hb, ih hr upper true]
    by_cases hearly : Refuses tolerant upper r (k :: passed).length
    · simp only [if_pos hearly, if_pos (hflag.mpr hearly)]
    · have hsame := h.get_recorded ha r.constant k
      rw [if_neg (h.notMem ha hp)] at hsame
      have hconstant : (answer a p r passed).constant = r.constant := by cases passed <;> rfl
      simp only [if_neg hearly, if_neg (mt hflag.mp hearly), hconstant, Arena.captures, hsame]
      rfl

theorem lookupAlong_none (ha : a.Rooted) (h : ∀ x ∈ along, ¬(a.get x).Knows name) (tolerant upper : Bool) :
    lookupAlong name along tolerant upper a = .ok none a := by
  induction along generalizing tolerant upper with
  | nil => rfl
  | cons k outer ih =>
    obtain ⟨hk, houter⟩ := forall_mem_cons.mp h
    rw [lookupAlong_cons, (ha.indexed k).binding?_eq_none_iff.mpr hk, ih houter]

/-- A lookup fails only on a name that is used before its declaration. It finds nothing when no scope
of the chain knows the name; otherwise the innermost scope knows the answer afterwards, and only
scopes of the chain have captured more. -/
theorem lookupAlong_sound (h : a.Sound) (name : String) (k : ScopeId) (tolerant upper : Bool) :
    match lookupAlong name (a.chain k) tolerant upper a with
    | .error e _ => e = .undefined name
    | .ok none b => b = a ∧ ∀ x ∈ a.chain k, (a.get x).binding? name = none
    | .ok (some r) b =>
      b.Sound ∧ a.Captured (a.chain k) b ∧ (b.get k).binding? name = some r := by
  have ha := h.toRooted
  rcases ha.finds name k with ⟨passed, found, hf⟩ | hnone
  · obtain ⟨r, hr⟩ := hf.known ha
    rw [lookupAlong_finds ha hf hr]
    by_cases hearly : Refuses tolerant upper r passed.length
    · rw [if_pos hearly]
    · rw [if_neg hearly]
      refine ⟨hf.sound h _, (hf.captured ha _).mono fun _ => hf.mem_chain ha, ?_⟩
      cases hf with
      | here => exact hr
      | outer hb hp hf => exact hf.binding?_recorded ha hb hp _
  · rw [lookupAlong_none ha hnone]
    exact ⟨rfl, fun x hx => (ha.indexed x).binding?_eq_none_iff.mpr (hnone x hx)⟩

theorem lookup_eq (k : ScopeId) (name : String) (tolerant upper : Bool) (a : Arena) :
    lookup k name tolerant upper a = lookupAlong name (a.chain k) tolerant upper a := rfl

theorem lookup_known (h : (a.get k).binding? name = some r) :
    lookup k name true true a = .ok (some r) a := by
  rw [lookup_eq]
  obtain ⟨outer, hchain⟩ := exists_chain_eq_cons a k
  rw [hchain, lookupAlong_cons, h]
  obtain ⟨binding, constant⟩ := r
  cases binding <;> rfl

/-! ## How names enter a scope -/

theorem setParamsFrom_cons (k : ScopeId) (index : Nat) (name : String) (names : List String) (a : Arena) :
    setParamsFrom k index (name :: names) a =
      if (a.get k).params.has name then
        .error (.redeclaration name) (a.modify k fun s => { s with params := s.params.put name index })
      else
        setParamsFrom k (index + 1) names
          (a.modify k fun s => { s with params := s.params.put name index }) := by
  simp only [setParamsFrom, get_bind]
  cases (a.get k).params.has name <;> rfl

/-- Parameters that are registered have different names and are numbered in order. -/
theorem setParamsFrom_sound (names : List String) (hk : k < a.scopes.size) (index : Nat) :
    match setParamsFrom k index names a with
    | .error e _ => ∃ name, e = .redeclaration name
    | .ok _ b => names.Nodup ∧ (∀ name ∈ names, (a.get k).params.has name = false) ∧
      a.Replaced k { a.get k with params := (a.get k).params ++ names.zipIdx index } b := by
  induction names generalizing a index with
  | nil =>
    refine ⟨nodup_nil, by simp, rfl, ?_, fun _ _ => rfl⟩
    simp
  | cons name names ih =>
    rw [setParamsFrom_cons]
    cases hrep : (a.get k).params.has name with
    | true => exact ⟨name, rfl⟩
    | false =>
      have hput : (a.get k).params.put name index = (a.get k).params ++ [(name, index)] := by
        unfold Table.put
        rw [hrep, if_neg Bool.false_ne_true]
      have hr := replaced_modify hk fun s => { s with params := s.params.put name index }
      simp only [hput] at hr
      rw [if_neg Bool.false_ne_true]
      generalize (a.modify k fun s => { s with params := s.params.put name index }) = b at hr ⊢
      have hrest := ih (a := b) (by rw [hr.size]; exact hk) (index + 1)
      cases hrun : setParamsFrom k (index + 1) names b with
      | error e c => rw [hrun] at hrest; exact hrest
      | ok u c =>
        rw [hrun] at hrest
        obtain ⟨hnd, hnew, hc⟩ := hrest
        have hhas : ∀ n ∈ names, n ≠ name ∧ (a.get k).params.has n = false := by
          intro n hn
          have := hnew n hn
          rw [hr.here, Table.has_eq_isSome, Table.find?_append_new hrep] at this
          rw [Table.has_eq_isSome]
          split at this
          · cases this
          · next hne => exact ⟨hne, this⟩
        refine ⟨nodup_cons.mpr ⟨fun hn => (hhas name hn).1 rfl, hnd⟩, ?_, ?_⟩
        · intro n hn
          rcases mem_cons.mp hn with rfl | hn
          · exact hrep
          · exact (hhas n hn).2
        · refine ⟨hc.size.trans hr.size, ?_, fun x hx => (hc.other x hx).trans (hr.other x hx)⟩
          rw [hc.here, hr.here, zipIdx_cons, append_assoc]
          rfl

theorem setRest_eq (k : ScopeId) (name : String) (slot : InstId) (a : Arena) : setRest k name slot a =
      if (a.get k).owns name then .error (.redeclaration name) a
      else .ok () (a.modify k fun s => { s with rest := some (name, slot) }) := by
  simp only [setRest, get_bind]
  cases (a.get k).owns name <;> rfl

theorem forwardDeclare_eq (k : ScopeId) (name : String) (slot : InstId) (constant : Bool) (a : Arena) :
    forwardDeclare k name slot constant a =
      if (a.get k).owns name then .error (.redeclaration name) a
      else .ok () (a.modify k fun s =>
        { s with locals := s.locals.put name { slot, forward := true, constant } }) := by
  simp only [forwardDeclare, get_bind]
  cases (a.get k).owns name <;> rfl

theorem declare_eq (k : ScopeId) (name : String) (slot : Option InstId) (constant : Bool) (a : Arena) :
    declare k name slot constant a =
      if (a.get k).params.has name || (a.get k).isRest name then .error (.redeclaration name) a
      else
        match (a.get k).locals.find? name, slot with
        | some d, slot =>
          if d.forward then
            .ok (slot.getD d.slot) (a.modify k fun s => { s with
              locals := s.locals.put name { slot := slot.getD d.slot, forward := false, constant } })
          else .error (.redeclaration name) a
        | none, some slot =>
          .ok slot (a.modify k fun s => { s with
            locals := s.locals.put name { slot, forward := false, constant } })
        | none, none => .error (.internal (.missingSlot name)) a := by
  simp only [declare, get_bind]
  cases (a.get k).params.has name || (a.get k).isRest name with
  | true => rfl
  | false =>
    cases (a.get k).locals.find? name with
    | some d => cases hf : d.forward <;> simp [hf] <;> rfl
    | none => cases slot <;> rfl

section

variable (hk : k < a.scopes.size)
include hk

theorem setRest_sound (name : String) (slot : InstId) : match setRest k name slot a with
    | .error e _ => e = .redeclaration name
    | .ok _ b => (a.get k).own? name = none ∧
      a.Replaced k { a.get k with rest := some (name, slot) } b := by
  rw [setRest_eq]
  cases h : (a.get k).owns name with
  | true => rfl
  | false => exact ⟨own?_eq_none_iff.mpr h, replaced_modify hk fun s => { s with rest := some (name, slot) }⟩

theorem forwardDeclare_sound (name : String) (slot : InstId) (constant : Bool) :
    match forwardDeclare k name slot constant a with
    | .error e _ => e = .redeclaration name
    | .ok _ b => (a.get k).own? name = none ∧
      a.Replaced k
        { a.get k with locals := (a.get k).locals.put name { slot, forward := true, constant } } b := by
  rw [forwardDeclare_eq]
  cases h : (a.get k).owns name with
  | true => rfl
  | false =>
    exact ⟨own?_eq_none_iff.mpr h, replaced_modify hk fun s =>
      { s with locals := s.locals.put name { slot, forward := true, constant } }⟩

theorem declare_announced (hlocal : (a.get k).locals.has name) (constant : Bool) :
    match declare k name none constant a with
    | .error e _ => e = .redeclaration name
    | .ok slot b => (a.get k).own? name = some (.cell slot) ∧
      (a.get k).params.has name = false ∧ (a.get k).isRest name = false ∧
      a.Replaced k
        { a.get k with locals := (a.get k).locals.put name { slot, forward := false, constant } } b := by
  rw [declare_eq]
  cases htaken : (a.get k).params.has name || (a.get k).isRest name with
  | true => rfl
  | false =>
    obtain ⟨hp, hr⟩ := Bool.or_eq_false_iff.mp htaken
    rw [Table.has_eq_isSome, isSome_iff_exists] at hlocal
    obtain ⟨d, hd⟩ := hlocal
    simp only [hd, getD_none]
    cases hf : d.forward with
    | false => rfl
    | true =>
      exact ⟨own?_of_local hp hr hd, hp, hr, replaced_modify hk fun s =>
        { s with locals := s.locals.put name { slot := d.slot, forward := false, constant } }⟩

theorem declare_new (hnew : (a.get k).own? name = none) (slot : InstId) (constant : Bool) :
    ∃ b, declare k name (some slot) constant a = .ok slot b ∧
      (a.get k).params.has name = false ∧ (a.get k).isRest name = false ∧
      a.Replaced k
        { a.get k with locals := (a.get k).locals.put name { slot, forward := false, constant } } b := by
  obtain ⟨hp, hr, hl⟩ := untaken_of_own? hnew
  rw [Table.has_eq_isSome, isSome_eq_false_iff, isNone_iff_eq_none] at hl
  refine ⟨_, ?_, hp, hr, replaced_modify hk fun s =>
    { s with locals := s.locals.put name { slot, forward := false, constant } }⟩
  rw [declare_eq, hp, hr, hl]
  rfl

end

end Naming

end Scope

end ScriptIr
