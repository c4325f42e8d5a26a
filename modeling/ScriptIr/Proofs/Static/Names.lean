import ScriptIr.Proofs.Static.Arenas

/-!
# Names that enter scopes

A scope is opened, takes its names while it is the newest one, and then reaches them one by one.

* `Arena.Models.declare`: a pending name is reached.
-/
namespace ScriptIr

open Code Scope List

namespace Static

/-! ## Pending names -/

namespace Env

variable {env : Env} {T U : Table Bool} {names : List String} {name : String}

@[simp] theorem bind_nil (env : Env) : env.bind [] = env := by
  unfold bind
  rw [filter_eq_self.mpr (by simp)]

theorem bind_bind (env : Env) (names more : List String) :
    (env.bind names).bind more = env.bind (names ++ more) := by
  simp [bind, filter_filter, Bool.and_comm]

theorem mem_pending_bind : name ∈ (env.bind names).pending ↔ name ∈ env.pending ∧ name ∉ names := by
  simp [bind]

theorem constant?_enter (env : Env) (T : Table Bool) (pending : List String) (name : String) :
    (env.enter T pending).constant? name = (T.find? name).or (env.constant? name) := by
  unfold constant? enter
  rw [findSome?_cons]
  cases T.find? name <;> rfl

theorem bind_enter_self (env : Env) (T : Table Bool) (names : List String) :
    (env.enter T names).bind names = env.enter T [] := by
  simp [bind, enter]

/-- Names that are pending, each once and as constant as the table says. -/
structure Awaits (env : Env) (T : Table Bool) : Prop where
  nodup : T.names.Nodup
  pending : ∀ e ∈ T, e.1 ∈ env.pending
  constant : ∀ e ∈ T, env.constant? e.1 = some e.2

theorem Awaits.nil : env.Awaits [] := ⟨nodup_nil, by simp, by simp⟩

theorem names_append (T U : Table Bool) : (T ++ U).names = T.names ++ U.names := map_append

theorem Awaits.left (h : env.Awaits (T ++ U)) : env.Awaits T where
  nodup := (nodup_append.mp (names_append T U ▸ h.nodup)).1
  pending e he := h.pending e (mem_append_left _ he)
  constant e he := h.constant e (mem_append_left _ he)

theorem Awaits.right (h : env.Awaits (T ++ U)) : (env.bind T.names).Awaits U where
  nodup := (nodup_append.mp (names_append T U ▸ h.nodup)).2.1
  pending e he := mem_pending_bind.mpr ⟨h.pending e (mem_append_right _ he), fun ht =>
    (nodup_append.mp (names_append T U ▸ h.nodup)).2.2 _ ht _ (mem_map_of_mem he) rfl⟩
  constant e he := h.constant e (mem_append_right _ he)

theorem Awaits.perm (h : env.Awaits T) (hperm : T.Perm U) : env.Awaits U where
  nodup := (hperm.map _).nodup_iff.mp h.nodup
  pending e he := h.pending e (hperm.mem_iff.mpr he)
  constant e he := h.constant e (hperm.mem_iff.mpr he)

end Env

end Static

open Static

namespace Scope

namespace Table

variable {T : Table Bool} {name : String}

theorem find?_isSome_iff : (T.find? name).isSome ↔ name ∈ T.names := by
  rw [← has_eq_isSome]
  simp [has, names]

theorem find?_eq_none_iff : T.find? name = none ↔ name ∉ T.names := by
  rw [← find?_isSome_iff]
  cases T.find? name <;> simp

theorem find?_of_mem (h : T.names.Nodup) {e : String × Bool} (he : e ∈ T) : T.find? e.1 = some e.2 := by
  induction T with
  | nil => cases he
  | cons x T ih =>
    have hnd := nodup_cons.mp h
    rw [find?_cons]
    rcases mem_cons.mp he with rfl | he
    · rw [if_pos rfl]
    · have hne : x.1 ≠ e.1 := by
        intro hx
        apply hnd.1
        show x.1 ∈ _
        rw [hx]
        exact mem_map_of_mem he
      rw [if_neg hne]
      exact ih hnd.2 he

theorem names_map (names : List String) (constant : Bool) :
    (show Table Bool from names.map (·, constant)).names = names := by
  simp [Table.names, Function.comp_def]

end Table

namespace Arena

variable {a b a0 : Arena} {k l m : ScopeId} {env : Env} {new : Scope}
  {name : String} {constant : Bool} {st : Standing} {c : Arena}

/-! ## One scope changes -/

section Replaced

variable (hr : a.Replaced k new b)

include hr

theorem Replaced.parent (hparent : new.parent = (a.get k).parent) (x : ScopeId) :
    (b.get x).parent = (a.get x).parent := by
  by_cases hx : x = k
  · rw [hx, hr.here, hparent]
  · rw [hr.other x hx]

theorem Replaced.captures (hcaptures : new.SameCaptures (a.get k)) (x : ScopeId) :
    b.captures x = a.captures x := by
  unfold Arena.captures
  by_cases hx : x = k
  · rw [hx, hr.here, hcaptures.1]
  · rw [hr.other x hx]

theorem Replaced.constant?_lt (hparent : new.parent = (a.get k).parent) (hl : l < k) (name : String) :
    b.constant? l name = a.constant? l name :=
  constant?_congr (fun x _ => hr.parent hparent x) fun x hx => by
    rw [hr.other x (Nat.ne_of_lt (Nat.lt_of_le_of_lt hx hl))]

/-- If the changed scope answers what it answered before, then all scopes do. -/
theorem Replaced.constant? (hs : a.Sound) (hs' : b.Sound)
    (hk : ∀ name, b.constant? k name = a.constant? k name) (x : ScopeId) (name : String) :
    b.constant? x name = a.constant? x name := by
  induction x using Nat.strongRecOn with
  | ind x ih =>
    by_cases hx : x = k
    · rw [hx, hk]
    · rw [hs.constant?_eq, hs'.constant?_eq, hr.other x hx]
      cases hp : (a.get x).parent with
      | none => rfl
      | some p => rw [Option.bind_some, Option.bind_some, ih p (hs.parent_lt x p hp)]

/-- A change to a scope that was opened meanwhile. -/
theorem Replaced.kept (h : a0.Kept none a) (hk : a0.scopes.size ≤ k) (hs : b.Sound)
    (hh : b.Honest) : a0.Kept none b := by
  have hsame : ∀ l < a0.scopes.size, b.get l = a.get l := fun l hl =>
    hr.other l (Nat.ne_of_lt (Nat.lt_of_lt_of_le hl hk))
  refine ⟨hr.size ▸ h.size, fun l hl => ?_, fun l hl => ?_, fun l hl hne => ?_, hs, hh⟩
  · rw [hsame l hl]; exact h.frame l hl
  · rw [hsame l hl]; exact h.constant l hl
  · rw [hsame l hl]; exact h.standing l hl hne

end Replaced

theorem isSome_own?_iff (s : Scope) (name : String) :
    (s.own? name).isSome = (s.standing? name).isSome := by
  rw [← owns_eq_isSome, owns_eq_isSome_standing?]

/-- A change that keeps what a scope declares. -/
theorem Kept.of_replaced (hs : a.Sound) (hh : a.Honest) (hr : a.Replaced k new b)
    (hframe : new.frame = (a.get k).frame) (hcaptures : new.SameCaptures (a.get k))
    (hconst : new.ownConstant? = (a.get k).ownConstant?) : a.Kept (some k) b := by
  have hparent : new.parent = (a.get k).parent := congrArg (·.1) hframe
  have hsome : ∀ name, ((a.get k).own? name).isSome → (new.own? name).isSome := by
    intro name h
    have := congrArg Option.isSome (congrFun hconst name)
    simp only [ownConstant?, Option.isSome_map] at this
    rw [isSome_own?_iff, this, ← isSome_own?_iff]
    exact h
  have hs' : b.Sound := hs.replaced hr hparent hcaptures hsome
  have hown : ∀ x, (b.get x).ownConstant? = (a.get x).ownConstant? := by
    intro x
    by_cases hx : x = k
    · rw [hx, hr.here, hconst]
    · rw [hr.other x hx]
  refine ⟨Nat.le_of_eq hr.size.symm, fun l _ => ?_, fun l _ => hown l, fun l _ hne => ?_, hs', ?_⟩
  · by_cases hl : l = k
    · rw [hl, hr.here, hframe]
    · rw [hr.other l hl]
  · rw [hr.other l fun hl => hne (by rw [hl])]
  · exact hh.of_same (hr.captures hcaptures) (hr.parent hparent) fun _ p _ name =>
      constant?_congr (fun x _ => hr.parent hparent x) fun x _ => congrFun (hown x) name

/-! ## Names are reached -/

section

variable (h : a.Models k env)
include h

/-- The constancy of a name that a scope declares itself. -/
theorem Models.ownConstant? (hst : (a.get k).standing? name = some st)
    (hc : env.constant? name = some constant) : (a.get k).ownConstant? name = some constant := by
  have := h.constants name
  rw [h.sound.constant?_eq, hc] at this
  unfold Scope.ownConstant? at this ⊢
  rw [hst] at this ⊢
  exact this

theorem Models.hasLocal (hx : name ∈ env.pending) : a.hasLocal k name = true := by
  obtain ⟨c, hc⟩ := (h.pending name).mp hx
  obtain ⟨_, _, d, hd, _⟩ := locals_of_forward hc
  unfold Arena.hasLocal
  rw [Table.has_eq_isSome, hd]
  rfl

theorem Models.declare (hx : name ∈ env.pending) (hc : env.constant? name = some constant) :
    ∃ slot b, Naming.declare k name none constant a = .ok slot b ∧ a.Kept (some k) b ∧
      b.Models k (env.bind [name]) := by
  obtain ⟨c, hst⟩ := (h.pending name).mp hx
  obtain ⟨hp, hrest, d, hd, hforward⟩ := locals_of_forward hst
  have hr := replaced_modify h.lt fun s =>
    { s with locals := s.locals.put name { slot := d.slot, forward := false, constant } }
  have hrun : Naming.declare k name none constant a = .ok d.slot (a.modify k fun s =>
      { s with locals := s.locals.put name { slot := d.slot, forward := false, constant } }) := by
    rw [Naming.declare_eq, hp, hrest, hd]
    simp [hforward]
  have hstanding := standing?_put_locals (d := { slot := d.slot, forward := false, constant }) hp hrest
  have hconst : Scope.ownConstant? { a.get k with
      locals := (a.get k).locals.put name { slot := d.slot, forward := false, constant } } =
        (a.get k).ownConstant? := by
    funext other
    by_cases ho : other = name
    · rw [ho, h.ownConstant? hst hc]
      unfold Scope.ownConstant?
      rw [hstanding, if_pos rfl]
      rfl
    · unfold Scope.ownConstant?
      rw [hstanding, if_neg ho]
  have hkept := Kept.of_replaced h.sound h.honest hr rfl ⟨rfl, rfl⟩ hconst
  refine ⟨d.slot, _, hrun, hkept, Nat.lt_of_lt_of_le h.lt hkept.size, hkept.sound, hkept.honest,
    fun other => ?_, fun other => ?_⟩
  · rw [hkept.constant? h.lt, h.constants]
    rfl
  · rw [Env.mem_pending_bind, h.pending, hr.here, hstanding, mem_singleton]
    by_cases ho : other = name
    · simp [ho]
    · simp [ho]

/-- A scope declares a name again that it sees already, and as constant as it sees it. -/
theorem Models.copy (hnew : (a.get k).standing? name = none)
    (hc : env.constant? name = some constant) (slot : InstId) :
    ∃ b, Naming.declare k name (some slot) constant a = .ok slot b ∧ b.Models k env ∧
      (∀ a0 : Arena, a0.Kept none a → a0.scopes.size ≤ k → a0.Kept none b) ∧
      (b.get k).frame = (a.get k).frame ∧
      ∀ other, other ≠ name → (b.get k).standing? other = (a.get k).standing? other := by
  have hown : (a.get k).own? name = none := by
    rw [← Option.isNone_iff_eq_none, ← Option.isSome_eq_false_iff, isSome_own?_iff, hnew]
    rfl
  obtain ⟨b, hrun, hp, hrest, hr⟩ := Naming.declare_new h.lt hown slot constant
  have hstanding := standing?_put_locals (d := { slot, forward := false, constant }) hp hrest
  have hs' : b.Sound := h.sound.replaced hr rfl ⟨rfl, rfl⟩ fun other hother => by
    rw [isSome_own?_iff] at hother ⊢
    rw [hstanding]
    split
    · rfl
    · exact hother
  have hsame : ∀ other, b.constant? k other = a.constant? k other := by
    intro other
    by_cases ho : other = name
    · rw [ho, h.constants, hc, hs'.constant?_eq, hr.here]
      unfold Scope.ownConstant?
      rw [hstanding, if_pos rfl]
      rfl
    · rw [h.sound.constant?_eq, hs'.constant?_eq, hr.here]
      unfold Scope.ownConstant?
      rw [hstanding, if_neg ho]
      cases hpar : (a.get k).parent with
      | none => rfl
      | some p =>
        rw [Option.bind_some, Option.bind_some, hr.constant?_lt rfl (h.sound.parent_lt k p hpar)]
  have hh' : b.Honest := h.honest.of_same (hr.captures ⟨rfl, rfl⟩) (hr.parent rfl) fun _ p _ other =>
    hr.constant? h.sound hs' hsame p other
  refine ⟨b, hrun, ⟨?_, hs', hh', fun other => ?_, fun other => ?_⟩,
    fun a0 h0 hk => hr.kept h0 hk hs' hh', by rw [hr.here]; rfl, fun other ho => ?_⟩
  · rw [hr.size]; exact h.lt
  · rw [hsame, h.constants]
  · rw [h.pending, hr.here, hstanding]
    by_cases ho : other = name
    · simp [ho, hnew]
    · simp [ho]
  · rw [hr.here, hstanding, if_neg ho]

end

/-! ## Jumps -/

section Exits

variable {parent : Option ScopeId} {kind : Kind} {onBreak onContinue : BlockId}

theorem frame_fields {s : Scope} {exit next : Option BlockId} (h : s.frame = (parent, kind, exit, next)) :
    s.parent = parent ∧ s.kind = kind ∧ s.breakTarget = exit ∧ s.continueTarget = next := by
  simpa [frame] using h

/-- Jumps inside a loop stay there. -/
theorem exits_loop (h : (a.get k).frame = (parent, kind, some onBreak, some onContinue)) :
    a.Exits k true := by
  obtain ⟨-, -, hbreak, hcontinue⟩ := frame_fields h
  unfold Exits
  rw [exit?_here hbreak, exit?_here hcontinue]
  exact ⟨rfl, rfl⟩

/-- A function cannot be left by jumps. -/
theorem exits_function (h : (a.get k).frame = (parent, .function, none, none)) :
    a.Exits k false := by
  obtain ⟨-, hkind, hbreak, hcontinue⟩ := frame_fields h
  unfold Exits
  rw [exit?_function hbreak hkind, exit?_function hcontinue hkind]
  exact ⟨rfl, rfl⟩

/-- Jumps inside a block go where jumps around it go. -/
theorem exits_block {loop : Bool} (h : (a.get k).frame = (some l, .block, none, none)) (hlt : l < k)
    (hl : a.Exits l loop) : a.Exits k loop := by
  obtain ⟨hparent, hkind, hbreak, hcontinue⟩ := frame_fields h
  unfold Exits
  rw [exit?_outer hbreak hkind hparent hlt, exit?_outer hcontinue hkind hparent hlt]
  exact hl

/-- In a round of a loop jumps to the end leave the loop around it. -/
theorem exits_round (h : (a.get k).frame = (some l, .block, none, some onContinue)) (hlt : l < k)
    (hl : (a.get l).breakTarget = some onBreak) : a.Exits k true := by
  obtain ⟨hparent, hkind, hbreak, hcontinue⟩ := frame_fields h
  unfold Exits
  rw [exit?_outer hbreak hkind hparent hlt, exit?_here hl, exit?_here hcontinue]
  exact ⟨rfl, rfl⟩

end Exits

/-- An arena in which jumps inside a scope may have other targets. -/
def Retargeted (k : ScopeId) (a b : Arena) : Prop :=
  ∃ onBreak onContinue,
    a.Replaced k { a.get k with breakTarget := onBreak, continueTarget := onContinue } b

theorem Retargeted.models (h : Retargeted k a b) (hm : a.Models l env) : b.Models l env := by
  obtain ⟨x, y, hr⟩ := h
  have hs' : b.Sound := hm.sound.replaced hr rfl ⟨rfl, rfl⟩ fun _ h => h
  have hget : ∀ x, (b.get x).standing? = (a.get x).standing? := by
    intro x
    by_cases hx : x = k
    · rw [hx, hr.here]; rfl
    · rw [hr.other x hx]
  have hsame : ∀ x name, b.constant? x name = a.constant? x name := fun x name =>
    constant?_congr (fun x _ => hr.parent rfl x) fun x _ => by
      unfold ownConstant?
      rw [hget]
  refine ⟨hr.size ▸ hm.lt, hs', ?_, fun name => (hsame l name).trans (hm.constants name), ?_⟩
  · exact hm.honest.of_same (hr.captures ⟨rfl, rfl⟩) (hr.parent rfl) fun _ p _ name => hsame p name
  · intro name
    rw [hget]
    exact hm.pending name

theorem Retargeted.kept (h : Retargeted k a b) (hm : a.Models l env) (hk : a0.scopes.size ≤ k)
    (h0 : a0.Kept none a) : a0.Kept none b := by
  have hb := h.models hm
  obtain ⟨x, y, hr⟩ := h
  exact hr.kept h0 hk hb.sound hb.honest

/-! ## A scope takes its names -/

/-- The newest scope, opened since `a0` inside `env`. It has the names of a table, of which some are
pending. -/
structure Opens (a0 : Arena) (m : ScopeId) (frame : Frame) (env : Env) (T : Table Bool)
    (pending : List String) (b : Arena) : Prop where
  kept : a0.Kept none b
  start : a0.scopes.size ≤ m
  newest : b.scopes.size = m + 1
  frame : (b.get m).frame = frame
  own : ∀ name, (b.get m).ownConstant? name = T.find? name
  outer : ∀ name, (b.get m).parent.bind (b.constant? · name) = env.constant? name
  pending : ∀ name, name ∈ pending ↔ ∃ constant, (b.get m).standing? name = some ⟨true, constant⟩
  nodup : T.names.Nodup

namespace Opens

variable {frame : Frame} {T : Table Bool} {pending : List String}

section

variable (h : Opens a0 m frame env T pending b)
include h

theorem lt : m < b.scopes.size := by
  rw [h.newest]
  exact Nat.lt_succ_self m

theorem models : b.Models m (env.enter T pending) where
  lt := h.lt
  sound := h.kept.sound
  honest := h.kept.honest
  constants name := by rw [h.kept.sound.constant?_eq, h.own, h.outer, Env.constant?_enter]
  pending := h.pending

theorem owns (name : String) : (b.get m).owns name = true ↔ name ∈ T.names := by
  rw [owns_eq_isSome_standing?, ← Table.find?_isSome_iff, ← h.own]
  unfold ownConstant?
  rw [Option.isSome_map]

theorem add (hname : name ∉ T.names) (hr : b.Replaced m new c)
    (hframe : new.frame = (b.get m).frame) (hcaptures : new.SameCaptures (b.get m))
    (hstanding : ∀ other, new.standing? other = if other = name then some st else (b.get
      m).standing? other) :
    Opens a0 m frame env (T ++ [(name, st.constant)])
      (pending ++ if st.forward then [name] else []) c := by
  have hparent : new.parent = (b.get m).parent := congrArg (·.1) hframe
  have hs' : c.Sound := h.kept.sound.replaced hr hparent hcaptures fun other hother => by
    rw [isSome_own?_iff] at hother ⊢
    rw [hstanding]
    split
    · rfl
    · exact hother
  -- a scope's parent is older than the newest scope
  have hsame : ∀ x p, (b.get x).parent = some p → ∀ other, c.constant? p other = b.constant? p other := by
    intro x p hp
    have hx : x < m + 1 := h.newest ▸ lt_size_of_parent hp
    have hpx := h.kept.sound.parent_lt x p hp
    exact hr.constant?_lt hparent (Nat.lt_of_lt_of_le hpx (Nat.le_of_lt_succ hx))
  have hh' := h.kept.honest.of_same (hr.captures hcaptures) (hr.parent hparent) hsame
  have hnone : (b.get m).standing? name = none := by
    have := mt (h.owns name).mp hname
    rw [owns_eq_isSome_standing?] at this
    simpa using this
  refine ⟨hr.kept h.kept h.start hs' hh', h.start, hr.size.trans h.newest, ?_, fun other => ?_,
    fun other => ?_, fun other => ?_, ?_⟩
  · rw [hr.here, hframe, h.frame]
  · rw [Table.find?_append_new (by rw [Table.has_eq_isSome, Table.find?_eq_none_iff.mpr hname]; rfl),
      hr.here]
    unfold ownConstant?
    rw [hstanding]
    split
    · rfl
    · exact h.own other
  · rw [hr.here, hparent, ← h.outer]
    cases hp : (b.get m).parent with
    | none => rfl
    | some p => exact hsame m p hp other
  · rw [mem_append, h.pending, hr.here, hstanding]
    by_cases ho : other = name
    · subst ho
      obtain ⟨f, c⟩ := st
      cases f <;> simp [hnone]
    · cases st.forward <;> simp [ho]
  · rw [Env.names_append]
    refine nodup_append.mpr ⟨h.nodup, by simp [Table.names], fun x hx y hy he => hname ?_⟩
    rw [← (show y = name from mem_singleton.mp hy), ← he]
    exact hx

theorem take (howns : (b.get m).owns name = false)
    (change : Scope → Scope) (hframe : (change (b.get m)).frame = (b.get m).frame)
    (hcaptures : (change (b.get m)).SameCaptures (b.get m))
    (hstanding : ∀ other, (change (b.get m)).standing? other = if other = name then some st else
      (b.get m).standing? other) :
    Opens a0 m frame env (T ++ [(name, st.constant)])
      (pending ++ if st.forward then [name] else []) (b.modify m change) := by
  refine h.add (fun hname => ?_) (replaced_modify h.lt change) hframe hcaptures hstanding
  rw [(h.owns name).mpr hname] at howns
  cases howns

theorem retarget {onBreak onContinue : Option BlockId}
    (hr : b.Replaced m { b.get m with breakTarget := onBreak, continueTarget := onContinue } c) :
    Opens a0 m (frame.1, frame.2.1, onBreak, onContinue) env T pending c := by
  refine ⟨Retargeted.kept ⟨_, _, hr⟩ h.models h.start h.kept, h.start, hr.size.trans h.newest, ?_,
    fun name => ?_, fun name => ?_, fun name => ?_, h.nodup⟩
  · rw [hr.here, ← h.frame]
    rfl
  · rw [hr.here]
    exact h.own name
  · rw [hr.here, ← h.outer]
    dsimp only
    cases hp : (b.get m).parent with
    | none => rfl
    | some p => exact hr.constant?_lt rfl (h.kept.sound.parent_lt m p hp) name
  · rw [hr.here]
    exact h.pending name

end

end Opens

/-! ## A scope that has its names -/

/-- A scope opened since `a0` that has all its names and is as an environment says. -/
structure Opened (a0 : Arena) (m : ScopeId) (frame : Frame) (env : Env) (b : Arena) : Prop where
  kept : a0.Kept none b
  start : a0.scopes.size ≤ m
  frame : (b.get m).frame = frame
  models : b.Models m env

namespace Opened

variable {frame : Frame} {T : Table Bool} {pending : List String}

theorem of_opens (h : Opens a0 m frame env T pending b) : Opened a0 m frame (env.enter T pending) b :=
  ⟨h.kept, h.start, h.frame, h.models⟩

theorem stable : Stable none (Opened a0 m frame env) := fun a b h hk =>
  ⟨h.kept.trans hk (by simp), h.start, (hk.frame m h.models.lt).trans h.frame, h.models.kept hk (by simp)⟩

theorem stable_rest : Stable (some m) fun b =>
    a0.Kept none b ∧ a0.scopes.size ≤ m ∧ m < b.scopes.size ∧ (b.get m).frame = frame :=
  fun a b h hk => ⟨h.1.trans hk fun l hl he => absurd (Option.some.inj he) (by
      exact (Nat.ne_of_lt (Nat.lt_of_lt_of_le hl h.2.1)).symm), h.2.1,
    Nat.lt_of_lt_of_le h.2.2.1 hk.size, (hk.frame m h.2.2.1).trans h.2.2.2⟩

theorem retarget {onBreak onContinue : Option BlockId} (h : Opened a0 m frame env b)
    (hr : b.Replaced m { b.get m with breakTarget := onBreak, continueTarget := onContinue } c) :
    Opened a0 m (frame.1, frame.2.1, onBreak, onContinue) env c := by
  refine ⟨Retargeted.kept ⟨_, _, hr⟩ h.models h.start h.kept, h.start, ?_,
    Retargeted.models ⟨_, _, hr⟩ h.models⟩
  rw [hr.here, ← h.frame]
  rfl

end Opened

/-! ## A scope is opened -/

section Push

variable {kind : Kind}

theorem Honest.push (h : a.Honest) (hs : a.Sound) (parent : Option ScopeId) :
    (a.push parent kind).2.Honest := by
  have hold : ∀ x, x < a.scopes.size → (a.push parent kind).2.get x = a.get x := fun x hx => by
    rw [get_push, if_neg (Nat.ne_of_lt hx)]
  intro x p c hc hp
  have hne : x ≠ a.scopes.size := by
    rintro rfl
    unfold captures at hc
    rw [get_push, if_pos rfl] at hc
    cases hc
  unfold captures at hc
  rw [get_push, if_neg hne] at hc hp
  have hlt : ∀ y ≤ p, y < a.scopes.size := fun y hy =>
    Nat.lt_of_le_of_lt hy (Nat.lt_trans (hs.parent_lt x p hp) (lt_size_of_parent hp))
  exact (constant?_congr (fun y hy => by rw [hold y (hlt y hy)]) fun y hy => by
    rw [hold y (hlt y hy)]).trans (h x p c hc hp)

theorem Kept.push (hs : a.Sound) (hh : a.Honest) {parent : Option ScopeId}
    (hparent : ∀ outer, parent = some outer → outer < a.scopes.size) :
    a.Kept none (a.push parent kind).2 := by
  have hold : ∀ x, x < a.scopes.size → (a.push parent kind).2.get x = a.get x := fun x hx => by
    rw [get_push, if_neg (Nat.ne_of_lt hx)]
  refine ⟨by rw [size_push]; omega, fun l hl => ?_, fun l hl => ?_, fun l hl _ => ?_,
    sound_push hs kind hparent, hh.push hs parent⟩ <;> rw [hold l hl]

theorem Models.push (h : a.Models k env) :
    Opens a a.scopes.size (some k, kind, none, none) env [] [] (a.push (some k) kind).2 := by
  have hkept : a.Kept none (a.push (some k) kind).2 := .push h.sound h.honest fun _ he => by
    cases he
    exact h.lt
  refine ⟨hkept, le_rfl, size_push .., ?_, fun name => ?_, fun name => ?_, fun name => ?_,
    nodup_nil⟩
  · rw [get_push, if_pos rfl]
    rfl
  · rw [get_push, if_pos rfl]
    rfl
  · rw [get_push, if_pos rfl]
    exact (hkept.constant? h.lt name).trans (h.constants name)
  · rw [get_push, if_pos rfl]
    constructor
    · rintro ⟨⟩
    · rintro ⟨c, hc⟩
      cases hc

theorem opens_first : Opens empty 0 (none, kind, none, none) {} [] [] (empty.push none kind).2 := by
  refine ⟨.push sound_empty honest_empty (by simp), le_rfl, size_push .., rfl, fun name => ?_,
    fun name => ?_, fun name => ?_, nodup_nil⟩
  · rfl
  · rfl
  · constructor
    · rintro ⟨⟩
    · rintro ⟨c, hc⟩
      cases hc

end Push

end Arena

end Scope

end ScriptIr
