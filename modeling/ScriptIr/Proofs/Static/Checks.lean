import ScriptIr.Proofs.Uniform.Expressions
import ScriptIr.Proofs.Static.Names

/-!
# Checking by lowering

A computation that emits code succeeds if and only if what it stands for is as it should be. Internal
faults are left out of account here; they are excluded for whole programs.

Most steps of a lowering emit code and do not touch the scopes. The others look up names and so leave a
scope as the environment says, or let a name enter a scope.

* `Sees`: an assertion under which a scope is as an environment says.
-/
namespace ScriptIr.Static

open Code Scope Scope.Arena Lower

variable {e : Error} {n : Nat} {a : α}

/-! ## Findings -/

section Fine

variable {fs gs : List Finding} {f : Finding}

@[simp] theorem fine_nil : Fine [] := nofun

@[simp] theorem fine_append : Fine (fs ++ gs) ↔ Fine fs ∧ Fine gs := List.forall_mem_append

@[simp] theorem fine_cons : Fine (f :: fs) ↔ f.Fine ∧ Fine fs := List.forall_mem_cons

theorem not_fine_refused : ¬Fine [.refused e] := fun h => (fine_cons.mp h).1

end Fine

/-! ## Computations -/

/-- From scopes as `P` says the computation leads to scopes as `Q` says if all findings are fine, and
fails otherwise. It may also end in an internal fault. -/
def Leads (P : Arena → Prop) (fs : List Finding) (x : Emit α) (Q : α → Arena → Prop) : Prop :=
  ∀ s : State, P s.scopes → match x s with
    | .ok a t => Fine fs ∧ Q a t.scopes
    | .error e _ => (∃ fault, e = .internal fault) ∨ ¬Fine fs

abbrev Checks (P : Arena → Prop) (fs : List Finding) (x : Emit α) : Prop := Leads P fs x fun _ => P

namespace Leads

variable {P P' : Arena → Prop} {fs gs : List Finding} {Q Q' : α → Arena → Prop}
  {R : β → Arena → Prop} {x : Emit α} {f : α → Emit β}

theorem bind (hx : Leads P fs x Q) (hf : ∀ a, Leads (Q a) gs (f a) R) :
    Leads P (fs ++ gs) (x >>= f) R := by
  intro s hs
  have hrun : (x >>= f) s = match x s with
    | .ok a t => f a t
    | .error e t => .error e t := by
    show EStateM.bind x f s = _
    unfold EStateM.bind
    cases x s <;> rfl
  have hx := hx s hs
  rw [hrun]
  cases hxs : x s with
  | error e t =>
    rw [hxs] at hx
    exact hx.imp_right fun hne h => hne (fine_append.mp h).1
  | ok a t =>
    rw [hxs] at hx
    have hf := hf a t hx.2
    dsimp only
    cases hfs : f a t with
    | error e u =>
      rw [hfs] at hf
      exact hf.imp_right fun hne h => hne (fine_append.mp h).2
    | ok b u =>
      rw [hfs] at hf
      exact ⟨fine_append.mpr ⟨hx.1, hf.1⟩, hf.2⟩

theorem bind_nil (hx : Leads P [] x Q) (hf : ∀ a, Leads (Q a) gs (f a) R) : Leads P gs (x >>= f) R :=
  hx.bind hf

theorem bind_done (hx : Leads P fs x Q) (hf : ∀ a, Leads (Q a) [] (f a) R) : Leads P fs (x >>= f) R := by
  have := hx.bind hf
  rwa [List.append_nil] at this

theorem conseq (h : Leads P fs x Q) (hpre : ∀ a, P' a → P a) (hpost : ∀ a b, Q a b → Q' a b) :
    Leads P' fs x Q' := by
  intro s hs
  have h := h s (hpre _ hs)
  cases hxs : x s with
  | error e t => rw [hxs] at h; exact h
  | ok a t => rw [hxs] at h; exact ⟨h.1, hpost a _ h.2⟩

theorem congr (h : Leads P fs x Q) (hfg : Fine fs ↔ Fine gs) : Leads P gs x Q := by
  intro s hs
  have h := h s hs
  cases hxs : x s with
  | error e t => rw [hxs] at h; exact h.imp_right (mt hfg.mpr)
  | ok a t => rw [hxs] at h; exact ⟨hfg.mp h.1, h.2⟩

/-- An assertion about the moment when the computation starts. -/
theorem of_start (h : ∀ a, P a → Leads (· = a) fs x Q) : Leads P fs x Q :=
  fun s hs => h s.scopes hs s rfl

theorem already (hx : Leads P fs x Q) (h : ∀ a, P a → Fine gs) : Leads P (gs ++ fs) x Q := by
  intro s hs
  have hsame : Fine fs ↔ Fine (gs ++ fs) := by rw [fine_append, and_iff_right (h _ hs)]
  exact hx.congr hsame s hs

theorem assume {q : Prop} (h : q → Leads P fs x Q) : Leads (fun b => P b ∧ q) fs x Q :=
  fun s hs => h hs.2 s hs.1

theorem pure (h : ∀ b, P b → Q a b) : Leads P [] (Pure.pure a) Q :=
  fun _ hs => ⟨fine_nil, h _ hs⟩

theorem throw (h : ¬Fine fs) : Leads P fs (MonadExcept.throw e : Emit α) Q :=
  fun _ _ => .inr h

theorem fault (fault : Fault) : Leads P fs (MonadExcept.throw (.internal fault) : Emit α) Q :=
  fun _ _ => .inl ⟨fault, rfl⟩

theorem unsupported {construct : Construct} {loc : Option Location} (h : ¬Fine fs) :
    Leads P fs (unsupported construct loc : Emit α) Q := .throw h

theorem refusedIf (p : Prop) [Decidable p] (construct : Construct) (loc : Option Location) :
    Checks P (refusedIf p construct loc)
      (if p then Lower.unsupported construct loc else Pure.pure () : Emit Unit) := by
  unfold Static.refusedIf
  split
  · exact .unsupported not_fine_refused
  · exact .pure fun _ h => h

theorem refusedIf_bind (p : Prop) [Decidable p] (construct : Construct) (loc : Option Location)
    (h : Leads P fs x Q) :
    Leads P (Static.refusedIf p construct loc ++ fs)
      (if p then (do (Lower.unsupported construct loc : Emit Unit); x) else x) Q := by
  unfold Static.refusedIf
  split
  · exact fun _ _ => .inr fun hf => not_fine_refused (fine_append.mp hf).1
  · exact h

theorem ofExcept (x : Except Error α) :
    Leads P (refusal x) (MonadExcept.ofExcept x : Emit α) fun a b => P b ∧ x = .ok a := by
  cases x with
  | ok a => exact fun _ hs => ⟨fine_nil, hs, rfl⟩
  | error e => exact fun _ _ => .inr not_fine_refused

theorem ok_bind (h : Leads P fs (f a) R) :
    Leads P fs (MonadExcept.ofExcept (.ok a : Except Error α) >>= f) R := h

theorem scopes_bind {read : Arena → α} (h : ∀ b, P b → Leads (· = b) fs (f (read b)) R) :
    Leads P fs (scopes read >>= f) R := fun s hs => h _ hs s rfl

theorem naming {x : Naming α} (h : ∀ a, P a → match x a with
      | .ok r b => Fine fs ∧ Q r b
      | .error e _ => (∃ fault, e = .internal fault) ∨ ¬Fine fs) : Leads P fs (Lower.naming x) Q := by
  intro s hs
  have h := h _ hs
  unfold Lower.naming
  cases hxs : x s.scopes with
  | error e t => rw [hxs] at h; exact h
  | ok a t => rw [hxs] at h; exact h

theorem discard {Q : Arena → Prop} (h : Leads P fs x fun _ => Q) :
    Leads P fs (Functor.discard x) fun _ => Q := by
  intro s hs
  have h := h s hs
  have hrun : Functor.discard x s = EStateM.map (Function.const α PUnit.unit) x s := rfl
  rw [hrun]
  unfold EStateM.map
  cases hxs : x s with
  | error e t => rw [hxs] at h; exact h
  | ok a t => rw [hxs] at h; exact h

theorem modifyScopes {change : Arena → Arena} (h : ∀ a, P a → P' (change a)) :
    Leads P [] (modifyScopes change) fun _ => P' := fun _ hs => ⟨fine_nil, h _ hs⟩

end Leads

/-! ## Quiet computations -/

section Quiet

variable {P : Arena → Prop} {fs : List Finding} {R : β → Arena → Prop} {x : Emit α} {f : α → Emit β}

theorem Leads.quiet (hx : Quiet x) : Checks P [] x := by
  intro s hs
  obtain ⟨a, t, hrun, hscopes⟩ := hx s
  rw [hrun]
  exact ⟨fine_nil, by rw [hscopes]; exact hs⟩

theorem Leads.quiet_bind (hx : Quiet x) (hf : ∀ a, Leads P fs (f a) R) : Leads P fs (x >>= f) R :=
  (Leads.quiet hx).bind hf

theorem Leads.bind_quiet {Q : Arena → Prop} (hx : Leads P fs x fun _ => Q) (hf : ∀ a, Quiet (f a)) :
    Leads P fs (x >>= f) fun _ => Q := hx.bind_done fun a => .quiet (hf a)

theorem Leads.step (hx : Plain n x) (hf : ∀ a, Leads P fs (f a) R) : Leads P fs (x >>= f) R :=
  .quiet_bind hx.quiet hf

theorem Leads.done {Q : Arena → Prop} (hx : Leads P fs x fun _ => Q) (hf : ∀ a, Plain n (f a)) :
    Leads P fs (x >>= f) fun _ => Q := hx.bind_quiet fun a => (hf a).quiet

end Quiet

/-! ## Names that are used -/

/-- A property of arenas that lasts and makes a scope as an environment says. -/
structure Sees (P : Arena → Prop) (k : ScopeId) (env : Env) : Prop where
  stable : Stable none P
  models : ∀ a, P a → a.Models k env

/-- Computations that check what is found, wherever a scope is as an environment says. -/
def checking (sees : (Arena → Prop) → ScopeId → Env → Prop) : Calculus where
  Site := { p : Ctx × Env × (Arena → Prop) // sees p.2.2 p.1.scope p.2.1 }
  Grade := Finding
  ctx i := i.1.1
  holds i fs x _ := Checks i.1.2.2 fs x
  Fails fs e _ := (∃ fault, e = .internal fault) ∨ ¬Fine fs
  plain h := .quiet h.quiet
  bind hx hg := hx.bind hg
  throw h _ _ := h
  fails_append h _ := h.imp_right fun hne hf => hne (fine_append.mp hf).1

def checking.site {sees : (Arena → Prop) → ScopeId → Env → Prop} {env : Env} {P : Arena → Prop} (ctx : Ctx)
    (h : sees P ctx.scope env) : (checking sees).Site := ⟨(ctx, env, P), h⟩

abbrev CodeChecks (code : Ctx → BlockId → Emit α) (fs : Env → List Finding) : Prop :=
  (checking Sees).Code (fun i => fs i.1.2.1) code code

theorem CodeChecks.at {c : Ctx → BlockId → Emit α} {f : Env → List Finding} {env : Env}
    {P : Arena → Prop} (hc : CodeChecks c f) (ctx : Ctx) (hP : Sees P ctx.scope env) (b : BlockId) :
    Checks P (f env) (c ctx b) := hc ⟨(ctx, env, P), hP⟩ b

section Names

variable {P : Arena → Prop} {k : ScopeId} {env : Env}

theorem Sees.lookup_tolerant (h : Sees P k env) (name : String) :
    Checks P [] (naming (Naming.lookup k name true true)) := by
  refine .naming fun a ha => ?_
  have hlookup := Naming.lookup_models (h.models a ha) name true
  cases hrun : Naming.lookup k name true true a with
  | error e b => rw [hrun] at hlookup; cases hlookup.1
  | ok r b => rw [hrun] at hlookup; exact ⟨fine_nil, h.stable a b ha hlookup.1⟩

theorem Sees.lookup (h : Sees P k env) (name : String) :
    Leads P [.use name false (decide (name ∈ env.pending)) false]
      (naming (Naming.lookup k name false true))
      fun r b => P b ∧ r.map (·.constant) = env.constant? name := by
  refine .naming fun a ha => ?_
  have hlookup := Naming.lookup_models (h.models a ha) name false
  cases hrun : Naming.lookup k name false true a with
  | error e b =>
    rw [hrun] at hlookup
    exact .inr fun hf => by simpa [hlookup.2] using (fine_cons.mp hf).1.1
  | ok r b =>
    rw [hrun] at hlookup
    exact ⟨by simp [Finding.Fine, hlookup.2.2 rfl], h.stable a b ha hlookup.1, hlookup.2.1⟩

theorem nameAddress_checks (name : String) (write : Bool) :
    CodeChecks (fun ctx b => nameAddress ctx b name write) fun env => [env.use name write] := by
  rintro ⟨⟨ctx, env, P⟩, h⟩ b
  unfold nameAddress
  have hfine : Fine ([.use name false (decide (name ∈ env.pending)) false] ++
      [.use name write false (env.constant? name == some true)]) ↔ Fine [env.use name write] := by
    simp [Env.use, Finding.Fine]
  refine Leads.congr (.bind (h.lookup name) fun r => ?_) hfine
  refine .assume fun hr => ?_
  cases r with
  | none =>
    refine (Leads.quiet .emit).congr ?_
    simp [Finding.Fine, ← hr]
  | some r =>
    dsimp only
    cases hw : write && r.constant with
    | true =>
      refine .throw fun hf => ?_
      have hfine := (fine_cons.mp hf).1.2
      simp_all
    | false =>
      refine (Leads.quiet_bind (.pure _) fun _ => Leads.quiet Plain.slotAddress.quiet).congr ?_
      simpa [Finding.Fine, ← hr] using hw

theorem identifierAddress_checks (name : String) (write : Bool) :
    CodeChecks (fun ctx b => identifierAddress ctx b name write) fun env => [env.use name write] :=
  fun ⟨_, h⟩ b => ((nameAddress_checks name write).at _ h b).bind_quiet fun _ =>
    .bind .record fun _ => .pure _

/-- The names that an inner scope captures may be pending. -/
theorem capturedAddresses_checks (names : List String) :
    CodeChecks (fun ctx b => capturedAddresses ctx b names) fun _ => [] := by
  rintro ⟨⟨ctx, env, P⟩, h⟩ b
  induction names with
  | nil => exact (checking Sees).plain (.pure _)
  | cons name names ih =>
    refine .bind_nil (.bind_nil (h.lookup_tolerant name) fun r => ?_) fun _ =>
      ih.bind_quiet fun _ => .pure _
    cases r with
    | some r => exact .quiet Plain.slotAddress.quiet
    | none => exact .fault _

/-- Completing a frame looks up the names that it captures. -/
theorem closeFrame_checks (frame : Lower.Frame) :
    CodeChecks (fun ctx _ => Lower.closeFrame ctx frame) fun _ => [] := by
  rintro ⟨⟨ctx, env, P⟩, h⟩ b
  unfold Lower.closeFrame
  refine .quiet_bind .scopes fun names => ?_
  refine .bind_nil ((capturedAddresses_checks names).at _ h _) fun captured => ?_
  refine .quiet_bind .scopes fun size => .quiet_bind .instAt? fun inst => ?_
  split
  · exact .quiet_bind .patch fun _ => .quiet (Plain.perform rfl).quiet
  · exact .fault _

end Names

end ScriptIr.Static
