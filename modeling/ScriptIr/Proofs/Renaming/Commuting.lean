import ScriptIr.Proofs.Uniform.Plain
import ScriptIr.Proofs.Renaming.Arenas

/-!
# Computations that commute with renaming

Code that is emitted holds no local names, so renaming the scopes before or after a computation makes
no difference to the code. Only a name that no scope knows gets into the code, as a global variable;
such a name has to be one that the renaming leaves alone.

* `steady_emit`, `steady_newBlock`, ...: the primitives.
* `steady_identifierAddress`, `steady_closeFrame`: where names are turned into code.
-/
namespace ScriptIr.Lower

open Code Scope Scope.Arena

variable {x x' : Emit α} {g g' : α → Emit β} {f : α → α} {Q : α → Arena → Prop} {e e' : Error}

/-! ## States -/

def Use.rename (r : String → String) (u : Use) : Use := { u with name := r u.name }

def State.rename (r : String → String) (s : State) : State :=
  { s with scopes := s.scopes.rename r, uses := s.uses.map (Use.rename r) }

def renamed (r : String → String) (f : α → α) : EStateM.Result Error State α → EStateM.Result Error State α
  | .ok a s => .ok (f a) (s.rename r)
  | .error e s => .error (e.rename r) (s.rename r)

def scopesOf : EStateM.Result Error State α → Arena
  | .ok _ s => s.scopes
  | .error _ s => s.scopes

/-! ## Commuting -/

/-- From scopes with `P`, the second computation is the image of the first, which takes no name away
and ends, if it does not fail, in scopes with `Q`. -/
structure Commutes (r : String → String) (P : Arena → Prop) (f : α → α) (x x' : Emit α)
    (Q : α → Arena → Prop) : Prop where
  image : ∀ s : State, P s.scopes → x' (s.rename r) = renamed r f (x s)
  retains : ∀ s : State, P s.scopes → Retains s.scopes (scopesOf (x s))
  post : ∀ (s t : State) (a : α), P s.scopes → x s = .ok a t → Q a t.scopes

variable {r : String → String} {P P' : Arena → Prop}

theorem Commutes.bind {h : β → β} {R : β → Arena → Prop} (hx : Commutes r P f x x' Q)
    (hg : ∀ a, Commutes r (Q a) h (g a) (g' (f a)) R) : Commutes r P h (x >>= g) (x' >>= g') R := by
  refine ⟨fun s hs => ?_, fun s hs => ?_, fun s t b hs hrun => ?_⟩
  · show EStateM.bind x' g' (s.rename r) = renamed r h (EStateM.bind x g s)
    unfold EStateM.bind
    rw [hx.image s hs]
    cases hxs : x s with
    | error e t => rfl
    | ok a t => exact (hg a).image t (hx.post s t a hs hxs)
  · have hret := hx.retains s hs
    show Retains s.scopes (scopesOf (EStateM.bind x g s))
    unfold EStateM.bind
    cases hxs : x s with
    | error e t => rw [hxs] at hret; exact hret
    | ok a t =>
      rw [hxs] at hret
      exact hret.trans ((hg a).retains t (hx.post s t a hs hxs))
  · change EStateM.bind x g s = _ at hrun
    unfold EStateM.bind at hrun
    cases hxs : x s with
    | error e u => rw [hxs] at hrun; cases hrun
    | ok a u =>
      rw [hxs] at hrun
      exact (hg a).post u t b (hx.post s u a hs hxs) hrun

theorem Commutes.imp {Q' : α → Arena → Prop} (hx : Commutes r P f x x' Q) (hP : ∀ a, P' a → P a)
    (hQ : ∀ b a, Q b a → Q' b a) : Commutes r P' f x x' Q' :=
  ⟨fun s hs => hx.image s (hP _ hs), fun s hs => hx.retains s (hP _ hs),
    fun s t a hs hrun => hQ a _ (hx.post s t a (hP _ hs) hrun)⟩

/-- What holds of the scopes and cannot be broken by names that are added. -/
structure Lasting where
  holds : Arena → Prop
  lasts : ∀ {a b : Arena}, Retains a b → holds a → holds b

namespace Lasting

/-- Both conditions. -/
def and (P Q : Lasting) : Lasting where
  holds a := P.holds a ∧ Q.holds a
  lasts h hab := ⟨P.lasts h hab.1, Q.lasts h hab.2⟩

def seeing (k : ScopeId) (names : String → Prop) : Lasting where
  holds a := k < a.scopes.size ∧ ∀ name, names name → a.Sees k name
  lasts h hab :=
    ⟨Nat.lt_of_lt_of_le hab.1 h.size, fun name hn => (hab.2 name hn).retained h⟩

end Lasting

/-- A lasting condition survives a computation. -/
theorem Commutes.frame (hx : Commutes r P f x x' Q) (L : Lasting) (hP : ∀ a, P a → L.holds a) :
    Commutes r P f x x' fun b a => Q b a ∧ L.holds a := by
  refine ⟨hx.image, hx.retains, fun s t a hs hrun => ⟨hx.post s t a hs hrun, ?_⟩⟩
  have hret := hx.retains s hs
  rw [hrun] at hret
  exact L.lasts hret (hP _ hs)

/-- Computations that keep a condition and whose answers hold no names. -/
def Steady (r : String → String) (P : Arena → Prop) (x x' : Emit α) : Prop :=
  Commutes r P id x x' fun _ => P

variable {L : Lasting}

theorem Steady.bind (hx : Steady r P x x') (hg : ∀ a, Steady r P (g a) (g' a)) :
    Steady r P (x >>= g) (x' >>= g') :=
  Commutes.bind hx hg

theorem Commutes.mono {Q' : α → Arena → Prop} (h : Commutes r P f x x' Q)
    (hQ : ∀ a b, Q a b → Q' a b) : Commutes r P f x x' Q' := h.imp (fun _ h => h) hQ

theorem Steady.of_commutes (h : Commutes r L.holds id x x' Q) : Steady r L.holds x x' :=
  (h.frame L fun _ h => h).mono fun _ _ h => h.2

/-- What follows may rely on what the computation adds to the condition. -/
theorem Steady.after (hx : Commutes r L.holds f x x' Q) (hg : ∀ a, Steady r (Q a) (g a) (g' (f a))) :
    Steady r L.holds (x >>= g) (x' >>= g') :=
  .of_commutes (Q := fun _ _ => True) (hx.bind fun a => (hg a).mono fun _ _ _ => trivial)

theorem commutes_pure (a : α) (h : ∀ b, P b → Q a b) : Commutes r P f (pure a) (pure (f a)) Q :=
  ⟨fun _ _ => rfl, fun _ _ => .refl _, fun _ _ _ hs hrun => by cases hrun; exact h _ hs⟩

theorem steady_pure (a : α) : Steady r P (pure a) (pure a) := commutes_pure a fun _ h => h

theorem commutes_throw (h : e' = e.rename r) : Commutes r P f (throw e : Emit α) (throw e') Q := by
  subst h
  exact ⟨fun _ _ => rfl, fun _ _ => .refl _, nofun⟩

theorem steady_throw (h : e' = e.rename r) : Steady r P (throw e : Emit α) (throw e') := commutes_throw h

theorem steady_unsupported (construct : Construct) (loc : Option Location) :
    Steady r P (unsupported construct loc : Emit α) (unsupported construct loc) :=
  steady_throw rfl

/-! ## Primitives -/

/-- A computation that does not touch the scopes and does not look at them. -/
theorem steady_of_code (change : State → α × Code.Module)
    (hx : ∀ s, x s = .ok (change s).1 { s with module := (change s).2 })
    (hr : ∀ s, change (s.rename r) = change s) : Steady r P x x := by
  refine ⟨fun s _ => ?_, fun s _ => ?_, fun s t a hs hrun => ?_⟩
  · rw [hx, hx, hr]
    rfl
  · rw [hx]
    exact .refl _
  · rw [hx] at hrun
    cases hrun
    exact hs

variable (ctx : Ctx) (block : BlockId)

theorem steady_emit (inst : Inst) : Steady r P (emit ctx block inst) (emit ctx block inst) :=
  steady_of_code (fun s => (((s.module.functions[ctx.func]?).map (·.insts.size)).getD 0,
      s.module.modify ctx.func fun f => (f.push block inst).2))
    (fun _ => rfl) fun _ => rfl

theorem steady_newBlock : Steady r P (newBlock ctx) (newBlock ctx) :=
  steady_of_code (fun s => (((s.module.functions[ctx.func]?).map (·.blocks.size)).getD 0,
      s.module.modify ctx.func fun f => f.newBlock.2))
    (fun _ => rfl) fun _ => rfl

theorem steady_patch (id : InstId) (inst : Inst) : Steady r P (patch ctx id inst) (patch ctx id inst) :=
  steady_of_code (fun s => ((), s.module.modify ctx.func fun f => f.replace id inst))
    (fun _ => rfl) fun _ => rfl

theorem steady_instAt? (id : InstId) : Steady r P (instAt? ctx id) (instAt? ctx id) :=
  steady_of_code (fun s => ((s.module.functions[ctx.func]?).bind fun f => f.insts[id]?, s.module))
    (fun _ => rfl) fun _ => rfl

variable (name : String)

theorem steady_newFunction (paramCount : Nat) :
    Steady r P (newFunction name paramCount) (newFunction name paramCount) :=
  steady_of_code (fun s => s.module.newFunc name paramCount.toUInt32) (fun _ => rfl) fun _ => rfl

theorem commutes_get : Commutes r P (State.rename r) get get fun _ => P :=
  ⟨fun _ _ => rfl, fun _ _ => .refl _, fun _ _ _ hs h => by cases h; exact hs⟩

/-- Something that is read off the scopes and does not depend on names. -/
theorem steady_scopes {read read' : Arena → α} (h : ∀ a : Arena, read' (a.rename r) = read a) :
    Steady r P (scopes read) (scopes read') := by
  refine ⟨fun s _ => ?_, fun _ _ => .refl _, fun s t a hs hrun => ?_⟩
  · show EStateM.Result.ok (read' (s.scopes.rename r)) (s.rename r) = _
    rw [h]
    rfl
  · cases hrun
    exact hs

/-- A change of the scopes that does not depend on names and takes none away. -/
theorem steady_modifyScopes {change : Arena → Arena}
    (h : ∀ a : Arena, change (a.rename r) = (change a).rename r)
    (hret : ∀ a, Retains a (change a)) : Steady r L.holds (modifyScopes change) (modifyScopes change) := by
  refine ⟨fun s _ => ?_, fun s _ => hret s.scopes, fun s t a hs hrun => ?_⟩
  · show EStateM.Result.ok () { s.rename r with scopes := change (s.scopes.rename r) } = _
    rw [h]
    rfl
  · cases hrun
    exact L.lasts (hret s.scopes) hs

theorem steady_record (u : Use) : Steady r P (record u) (record (u.rename r)) := by
  refine ⟨fun s _ => ?_, fun _ _ => .refl _, fun s t a hs hrun => ?_⟩
  · show EStateM.Result.ok () { s.rename r with uses := (s.rename r).uses.push (u.rename r) }
      = renamed r id (.ok () { s with uses := s.uses.push u })
    simp only [renamed, State.rename, Array.map_push, id]
  · cases hrun
    exact hs

theorem commutes_naming {x x' : Naming α} (h : ∀ a, P a → Naming.Renames r a x x')
    (hpost : ∀ a b res, P a → x a = .ok res b → Q res b) :
    Commutes r P id (naming x) (naming x') Q := by
  refine ⟨fun s hs => ?_, fun s hs => ?_, fun s t a hs hrun => ?_⟩
  · have himage := (h _ hs).image
    unfold naming
    rw [show (s.rename r).scopes = s.scopes.rename r from rfl, himage]
    cases x s.scopes <;> rfl
  · have hret := (h _ hs).retains
    unfold naming
    cases hx : x s.scopes with
    | ok a b => rw [hx] at hret; exact hret
    | error e b => rw [hx] at hret; exact hret
  · unfold naming at hrun
    cases hx : x s.scopes with
    | ok res b =>
      rw [hx] at hrun
      cases hrun
      exact hpost _ _ _ hs hx
    | error e b => rw [hx] at hrun; cases hrun

theorem steady_naming {x x' : Naming α}
    (h : ∀ a, L.holds a → Naming.Renames r a x x') : Steady r L.holds (naming x) (naming x') :=
  .of_commutes (commutes_naming (Q := fun _ _ => True) h fun _ _ _ _ _ => trivial)

theorem commutes_newScope (parent : Option ScopeId) (kind : Kind) (names : String → Prop)
    (hparent : ∀ a, L.holds a → ∀ name, names name → ∃ p, parent = some p ∧ a.Sees p name) :
    Commutes r L.holds id (newScope parent kind) (newScope parent kind)
      fun k a => (L.and (.seeing k names)).holds a ∧ (a.get k).rest = none := by
  refine ⟨fun s _ => ?_, fun s _ => Arena.retains_push .., fun s t k hs hrun => ?_⟩
  · show EStateM.Result.ok ((s.scopes.rename r).push parent kind).1
      { s.rename r with scopes := ((s.scopes.rename r).push parent kind).2 } = _
    unfold Arena.push
    simp only [Arena.rename, Array.size_map]
    show _ = EStateM.Result.ok _ _
    congr 1
    simp only [State.rename, Arena.rename, Array.map_push]
    rfl
  · cases hrun
    refine ⟨⟨L.lasts (Arena.retains_push ..) hs, ?_, fun name hn => ?_⟩, ?_⟩
    · show s.scopes.scopes.size < (s.scopes.push parent kind).2.scopes.size
      rw [Arena.size_push]
      exact Nat.lt_succ_self _
    · obtain ⟨p, rfl, hsees⟩ := hparent _ hs name hn
      exact Arena.sees_push hsees kind
    · show ((s.scopes.push parent kind).2.get s.scopes.scopes.size).rest = none
      rw [Arena.get_push, if_pos rfl]

/-! ## Plain steps -/

theorem steady_plain {n : Nat} (h : Plain n x) : Steady r P x x := by
  induction h with
  | pure a => exact steady_pure a
  | bind _ _ ihx ihg => exact ihx.bind ihg
  | newBlock => exact steady_newBlock _
  | emit => exact steady_emit ..
  | completePhi _ ih =>
    exact (steady_emit ..).bind fun id => (ih id).bind fun a => (steady_patch ..).bind fun _ => steady_pure a

theorem Steady.step {n : Nat} (hx : Plain n x) (hg : ∀ a, Steady r P (g a) (g' a)) :
    Steady r P (x >>= g) (x >>= g') :=
  (steady_plain hx).bind hg

/-! ## Names -/

section Names

variable {r : Equiv.Perm String}

theorem steady_capturedAddress :
    Steady r L.holds (capturedAddress ctx block name) (capturedAddress ctx block (r name)) := by
  refine Steady.bind (steady_naming fun a _ => Naming.renames_lookup r a ..) fun res => ?_
  cases res with
  | some res => exact steady_plain .slotAddress
  | none => exact steady_throw rfl

theorem steady_capturedAddresses (names : List String) :
    Steady r L.holds (capturedAddresses ctx block names) (capturedAddresses ctx block (names.map r)) := by
  induction names with
  | nil => exact steady_pure []
  | cons name names ih =>
    exact (steady_capturedAddress ctx block name).bind fun _ => ih.bind fun _ => steady_pure _

theorem commutes_capturedNames (scope : ScopeId) :
    Commutes r L.holds (List.map r) (capturedNames scope) (capturedNames scope) fun _ => L.holds := by
  refine ⟨fun s _ => ?_, fun _ _ => .refl _, fun s t a hs hrun => ?_⟩
  · show EStateM.Result.ok (((s.scopes.rename r).captures scope).map (·.name)) (s.rename r) = _
    rw [Arena.capturedNames_rename]
    rfl
  · cases hrun
    exact hs

theorem steady_closeFrame (frame : Frame) :
    Steady r L.holds (closeFrame ctx frame) (closeFrame ctx frame) := by
  unfold closeFrame
  refine Commutes.bind (commutes_capturedNames frame.scope) fun names => ?_
  refine Steady.bind (steady_capturedAddresses ctx frame.entry names) fun captured => ?_
  refine Steady.bind (steady_scopes fun a => Arena.variableCount_rename r a _) fun size => ?_
  refine Steady.bind (steady_instAt? ctx frame.push) fun inst => ?_
  dsimp only
  split
  · exact (steady_patch ..).bind fun _ => steady_plain .jump
  · exact (steady_throw rfl).bind fun _ => steady_plain .jump

/-- An address is the same under another name, unless the name is that of a global variable. -/
theorem steady_nameAddress (write : Bool)
    (hglobal : ∀ a, L.holds a → ¬ a.Sees ctx.scope name → r name = name) :
    Steady r L.holds (nameAddress ctx block name write) (nameAddress ctx block (r name) write) := by
  unfold nameAddress
  have hlookup : Commutes r L.holds id (naming (Naming.lookup ctx.scope name false true))
      (naming (Naming.lookup ctx.scope (r name) false true))
      fun res _ => res = none → r name = name :=
    commutes_naming (fun a _ => Naming.renames_lookup r a ..) fun a b res ha hrun hres => by
      subst hres
      exact hglobal a ha (Naming.not_sees_of_lookup hrun)
  refine Commutes.bind (hlookup.frame L fun _ h => h) fun res => ?_
  cases res with
  | some res =>
    refine Commutes.imp ?_ (fun a h => h.2) fun _ _ h => h
    show Steady r L.holds _ _
    dsimp only [id]
    split
    · exact (steady_throw rfl).bind fun _ => steady_plain .slotAddress
    · exact steady_plain .slotAddress
  | none =>
    by_cases hfixed : r name = name
    · refine Commutes.imp ?_ (fun a h => h.2) fun _ _ h => h
      rw [hfixed]
      exact steady_emit ..
    · exact ⟨fun s hs => absurd (hs.1 rfl) hfixed, fun s hs => absurd (hs.1 rfl) hfixed,
        fun s t a hs _ => absurd (hs.1 rfl) hfixed⟩

theorem steady_identifierAddress (write : Bool)
    (hglobal : ∀ a, L.holds a → ¬ a.Sees ctx.scope name → r name = name) :
    Steady r L.holds (identifierAddress ctx block name write)
      (identifierAddress ctx block (r name) write) :=
  (steady_nameAddress ctx block name write hglobal).bind fun address =>
    (steady_record { func := ctx.func, name, address }).bind fun _ => steady_pure address

end Names

end ScriptIr.Lower
