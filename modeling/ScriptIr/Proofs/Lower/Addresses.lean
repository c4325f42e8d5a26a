import ScriptIr.Lower.Address
import ScriptIr.Proofs.Lower.Opening

/-!
# Addresses of names

A lookup from a scope ends at what the scope itself knows of the name: its own slot, or a capture whose
slot the frame or the closure of the scope holds. Names that a finished scope captures are known to the
scope around it, so their addresses can be fetched there.

* `slotAddress_sat`: the address of a name that a scope knows.
* `capturedAddresses_sat`: the addresses of the names that an inner scope captures.
* `Config.env_eq_none`: a name that no scope of the chain declares refers to nothing.
* `identifierAddress_sat`: the address of a name in the program.
-/
namespace ScriptIr.Lower

open Code List Scope

variable {M : Mode} {strict : Prop}

namespace Config

variable {c d : Config strict}

theorem Quiet.own? (h : c.Quiet d) : d.own? = c.own? := by
  unfold Layout.own?
  rw [h.scopes]

theorem Quiet.captures (h : c.Quiet d) (k : ScopeId) : d.scopes.captures k = c.scopes.captures k := by
  rw [h.scopes]

theorem Emitted.yields {f : Nat} {b : BlockId} {k : ScopeId} {R : Multiset Token} {i : Inst}
    {v : InstId} (h : c.Emitted f b k R i v d) (hi : i.hasValue = true) : c.Yields f b k R v d :=
  ⟨h.quiet, h.tokens, h.valued hi⟩

end Config

section Addresses

variable {c : Config M.strict} {ctx : Ctx} {env : Tree.Env} {b : BlockId} {R : Multiset Token}
  {name : String}

section

variable (h : c.tokens = {ctx.here b} + R)
include h

theorem slotAddress_sat {r : Scope.Resolved} (hhome : c.home ctx.scope = ctx.func)
    (hr : (c.scopes.get ctx.scope).binding? name = some r) :
    Sat M (slotAddress ctx b r.binding) c fun v d =>
      c.Yields ctx.func b ctx.scope R v d ∧ d.Denotes ctx.func v ctx.scope name := by
  rcases Scope.binding?_cases hr with ⟨i, hown, hb⟩ | ⟨v, hown, hb⟩ | ⟨hown, hb⟩
  · rw [hb]
    refine (emit_sat h (i := .arg i.toUInt32) rfl (fun _ ho => absurd ho not_mem_nil)).mono ?_
    intro v d he
    refine ⟨he.yields rfl, .parameter i ?_ he.inst⟩
    rw [he.quiet.own?]
    exact hown
  · have hv : c.Valued ctx.func v := hhome ▸ Config.valued_cell hown
    have hdone : Sat M (pure v : Emit InstId) c fun v d =>
        c.Yields ctx.func b ctx.scope R v d ∧ d.Denotes ctx.func v ctx.scope name :=
      .pure ⟨⟨.refl c, h, hv⟩, .cell hown⟩
    rcases hb with hb | hb | hb
    · rw [hb]; exact hdone
    · rw [hb]; exact hdone
    · rw [hb]; exact hdone
  · obtain ⟨i, cap, hget, hname, rfl⟩ := (c.arenaOk.sound.indexed _).getElem?_capture hb
    refine (emit_sat h (i := .capture i.toUInt32) rfl
      (fun _ ho => absurd ho not_mem_nil)).mono ?_
    intro v d he
    refine ⟨he.yields rfl, .capture i cap ?_ ?_ hname he.inst he.site⟩
    · rw [he.quiet.own?]
      exact hown
    · rw [he.quiet.captures]
      exact hget

theorem capturedAddress_sat (hhome : c.home ctx.scope = ctx.func)
    (hknown : ((c.scopes.get ctx.scope).binding? name).isSome) :
    Sat M (capturedAddress ctx b name) c fun v d =>
      c.Yields ctx.func b ctx.scope R v d ∧ d.Denotes ctx.func v ctx.scope name := by
  obtain ⟨r, hr⟩ := Option.isSome_iff_exists.mp hknown
  have hlook : Sat M (naming (Scope.Naming.lookup ctx.scope name true true)) c fun r' d =>
      d = c ∧ r' = some r := by
    refine naming_sat ?_
    rw [Scope.Naming.lookup_known hr]
    exact ⟨c, rfl, rfl, rfl⟩
  unfold capturedAddress
  refine hlook.bind ?_
  rintro _ _ ⟨rfl, rfl⟩
  exact slotAddress_sat h hhome hr

theorem capturedAddresses_sat {names : List String} (hat : c.At ctx env R)
    (hknown : ∀ name ∈ names, ((c.scopes.get ctx.scope).binding? name).isSome) :
    Sat M (capturedAddresses ctx b names) c fun vs d =>
      c.Quiet d ∧ d.tokens = {ctx.here b} + R ∧ (∀ v ∈ vs, d.Valued ctx.func v) ∧
        (M.strict → Forall₂ (fun v name => d.Denotes ctx.func v ctx.scope name) vs names) := by
  induction names generalizing c with
  | nil => exact .pure ⟨.refl c, h, fun _ hv => absurd hv not_mem_nil, fun _ => .nil⟩
  | cons name names ih =>
    unfold capturedAddresses
    refine (capturedAddress_sat h hat.home (hknown name (mem_cons_self ..))).bind ?_
    rintro v d ⟨hd, hv⟩
    have hat' := hat.mono hd.le
    refine (ih hd.tokens hat' fun n hn => ?_).bind ?_
    · rw [hd.quiet.scopes]
      exact hknown n (mem_cons_of_mem name hn)
    · rintro vs e ⟨hq, ht, hvs, hall⟩
      refine .pure ⟨hd.quiet.trans hq, ht, ?_, fun hs => .cons ?_ (hall hs)⟩
      · intro w hw
        rcases mem_cons.mp hw with rfl | hw
        · exact hd.valued.mono hq.le
        · exact hvs w hw
      · exact hv.mono hq.le hs (by rw [hat'.env]; exact Option.some_ne_none env)

end

end Addresses

theorem Config.env_eq_none {c : Config strict} (hs : strict) {k : ScopeId} {env : Tree.Env}
    {name : String} (he : c.env k = some env)
    (hnone : ∀ x ∈ c.scopes.chain k, c.own? x name = none) : env name = none := by
  induction k using Nat.strongRecOn generalizing env with
  | ind k ih =>
    have hlex := c.lexicalOk hs
    have hk := hnone k (Arena.mem_chain_self _ k)
    cases hp : c.parent? k with
    | none => exact hlex.root k env name he hp hk
    | some outer =>
      obtain ⟨env', he', hsame⟩ := hlex.outer k env outer he hp
      rw [hsame name hk]
      refine ih outer (c.arenaOk.sound.parent_lt k outer hp) he' fun x hx => hnone x ?_
      rw [c.arenaOk.sound.chain_inner hp]
      exact mem_cons_of_mem k hx

section Identifiers

variable {c : Config M.strict} {ctx : Ctx} {env : Tree.Env} {b : BlockId} {R : Multiset Token}

theorem nameAddress_sat (h : c.tokens = {ctx.here b} + R) (hat : c.At ctx env R)
    (name : String) (write : Bool) :
    Sat M (nameAddress ctx b name write) c fun v d =>
      c.Still d ∧ d.tokens = {ctx.here b} + R ∧ d.Valued ctx.func v ∧
        (M.strict → d.Resolves ⟨ctx.func, name, v⟩ ⟨name, env name⟩) := by
  unfold nameAddress
  have hlive : ∀ x ∈ c.scopes.chain ctx.scope, ∃ phase, .scope x phase ∈ c.tokens := fun x hx =>
    ⟨.running, by rw [h, mem_add_singleton]; exact .inr (hat.running x hx)⟩
  refine (lookup_sat hlive name false true).bind ?_
  rintro r d ⟨hstill, ht, hr⟩
  rw [h] at ht
  have hat' := hat.mono hstill.le
  cases r with
  | none =>
    refine (emit_sat ht (i := .getGlobal name) rfl (fun _ ho => absurd ho not_mem_nil)).mono ?_
    intro v e he
    refine ⟨hstill.trans he.quiet.still, he.tokens, he.valued rfl, fun hs => ⟨rfl, ctx.scope, env, ?_⟩⟩
    have hat'' := hat'.mono he.quiet.le
    refine ⟨hat''.scope, hat''.env, hat''.home, rfl, .inl ⟨?_, he.inst⟩⟩
    exact Config.env_eq_none hs hat.env fun x hx => Scope.own?_eq_none_of_binding? (hr x hx)
  | some r =>
    dsimp only
    split
    · exact .throw_bind M.allows
    · refine (slotAddress_sat ht hat'.home hr).mono ?_
      rintro v e ⟨he, hv⟩
      refine ⟨hstill.trans he.quiet.still, he.tokens, he.valued, fun _ => ⟨rfl, ctx.scope, env, ?_⟩⟩
      have hat'' := hat'.mono he.le
      exact ⟨hat''.scope, hat''.env, hat''.home, rfl, .inr hv⟩

theorem identifierAddress_sat (h : c.tokens = {ctx.here b} + R)
    (hat : c.At ctx env R) (name : String) (write : Bool) :
    Sat M (identifierAddress ctx b name write) c fun v d =>
      c.Runs ctx env R (.use name) b d ∧ d.Valued ctx.func v := by
  unfold identifierAddress
  refine (nameAddress_sat h hat name write).bind ?_
  rintro v d ⟨hstill, ht, hv, hres⟩
  refine (record_sat hres).bind ?_
  rintro _ e ⟨hgrows, ht'⟩
  exact .pure ⟨⟨hstill.then hgrows, ht'.trans ht⟩, hv.mono hgrows.le⟩

end Identifiers

end ScriptIr.Lower
